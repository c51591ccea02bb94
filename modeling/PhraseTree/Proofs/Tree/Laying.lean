import PhraseTree.Proofs.Capture.Tracking
import PhraseTree.Proofs.Tree.Layout

/-!
# How a layout follows the text

A tree that is laid out goes on to be so when it takes a phrase: the phrase is put down behind everything else, or the
latest entry of the taker is lengthened, and what ends in the taker ends with the phrase.

* `Tree.Laid.push`, `Tree.Laid.lengthen`, `Tree.Laid.adopt`, `Tree.Laid.modify`: one lemma for each way to take a phrase;
* `Tree.Takes.laid`: **where no text is open**, a phrase behind everything else keeps the tree laid out;
* `Tree.Takes.laid_inText`: so does a character that goes into an open text; if the text gives something back, what ends
  in it ends where that starts;
* `Tree.Laid.settle`: leaving a text moves nothing.

All this is about grammars in which no path gives anything back, since there other branches would lose their place.
-/

namespace PhraseTree

variable {g : Grammar} {p : Phrase} {text : List Char} {m m' : Layout} {a b e low high z : Nat}

/-- No path of alternatives gives anything back. -/
def Grammar.ForksKeep (g : Grammar) : Prop :=
  ∀ rule alternatives, .alternatives alternatives ∈ g.parts rule → ∀ path ∈ alternatives.paths, ¬ path.HandsBack

theorem Layout.Grown.below {t t' : Tree} {id taker depth active : Nat} {n n' : Node} (hm : m.Grown t id a b e m')
    (hg : t.Graft id n n' depth t' taker) (ha : t.Arranged active) (hbelow : m.Below t id low z)
    (hnew : 0 < depth → a ≤ low ∧ b ≤ high) (hends : e ≤ low ∨ t'.EndsIn taker id ∧ e ≤ high) :
    m'.Below t' taker low high := by
  constructor
  · intro j hj
    rcases hg.old_or_new hj with hj | ⟨k, hk, rfl⟩
    · rw [hm.start_old j hj]
      exact hbelow.start_le j hj
    · rw [(hm.new _ (Nat.le_add_right _ _)).1]
      exact (hnew (by omega)).1
  · intro j hj
    rcases hg.old_or_new hj with hj | ⟨k, hk, rfl⟩
    · by_cases hj' : t.EndsIn id j
      · rw [hm.stop_ends j hj hj']
        rcases hends with hle | ⟨hid, hle⟩
        · exact Or.inl hle
        · exact Or.inr ⟨hg.endsIn_old ha hid hj', hle⟩
      · rw [hm.stop_old j hj hj']
        rcases hbelow.stop_le j hj with hle | ⟨habsurd, -⟩
        · exact Or.inl hle
        · exact absurd habsurd hj'
    · rw [(hm.new _ (Nat.le_add_right _ _)).2]
      exact Or.inr ⟨hg.endsIn_new hk, (hnew (by omega)).2⟩

namespace Tree

variable {t t' : Tree} {active id taker : Nat} {n n' : Node} {growth : Growth} {rule : RuleId}

/-! ### One way each -/

theorem Laid.modify {put : Node → Node} (h : t.Laid text m)
    (hentries : ∀ n, t.node? id = some n → n.entries ≠ [] → ∀ a b, Stacked (Entry.Lies text m) n.entries a b →
      Stacked (Entry.Lies text m) (put n).entries a b)
    (hne : ∀ n, t.node? id = some n → (put n).entries ≠ [] → n.entries ≠ [])
    (hglobals : ∀ n, (put n).globals = n.globals) : (⟨t.nodes.modify id put⟩ : Tree).Laid text m := by
  constructor
  · intro j n' hn' hne'
    rcases node?_modify_cases hn' with ⟨-, hold⟩ | ⟨n, rfl, hn, rfl⟩
    · exact h.entries j n' hold hne'
    · have hold := hne n hn hne'
      exact hentries n hn hold _ _ (h.entries _ n hn hold)
  · intro j n' hn' hne'
    rcases node?_modify_cases hn' with ⟨-, hold⟩ | ⟨n, rfl, hn, rfl⟩
    · exact h.globals j n' hold hne'
    · rw [hglobals] at hne' ⊢
      exact h.globals _ n hn hne'

theorem line_lies {parts : List (Part RuleId)} {i k : Nat} {put : Node → Node} {rule : RuleId} {parent? : Option NodeId}
    {entry : Entry} (hgrows : Grows g p parts i growth) (hp : p.span = stretch text a b) (hab : a < b)
    (hnew : ∀ j : Nat, t.size ≤ j → m.start j = a ∧ m.stop j = b)
    (hn : (t.extend id growth put).node? (t.size + k) = some ⟨rule, parent?, [entry], []⟩) :
    entry.Lies text m a b := by
  rw [node?_extend_add] at hn
  obtain ⟨rule', inner, heq, -, -, hinner⟩ := Growth.nodes_getElem? hn
  cases heq
  exact (hinner g p parts i hgrows).lies hp hab (hnew _ (by omega))

section Steps

variable (h : t.Laid text m) (ha : t.Arranged active) (hid : id ∈ t.chain active) (hn : t.node? id = some n)

include h ha hid hn

theorem Laid.push (hanswers : n.Answers g p (.grow growth)) (hp : p.span = stretch text a b) (hab : a < b)
    (hbelow : m.Below t id a a) :
    ∃ m', (t.apply id (.grow growth)).1.Laid text m' ∧
      m'.Below (t.apply id (.grow growth)).1 (t.apply id (.grow growth)).2 a b := by
  have hg := graft_apply hn hanswers
  obtain ⟨i, hgrows⟩ := hanswers.grows
  -- an instance without entries starts with the phrase
  obtain ⟨m₀, h₀, hbelow₀, hstart⟩ : ∃ m₀, t.Laid text m₀ ∧ Layout.Below m₀ t id a a ∧
      (n.entries = [] → m₀.start id = a) := by
    by_cases hempty : n.entries = []
    · have hroot : id = 0 := by
        by_contra hne
        exact ha.filled id n hn (by omega) hempty
      have hnochild : ∀ q, id ∉ t.children q := by
        intro q hmem
        obtain ⟨n₀, hn₀, hparent⟩ := ha.root
        have := ha.owner id q hmem
        rw [hroot, parent?_eq hn₀, hparent] at this
        cases this
      refine ⟨_, h.restart hn hempty hnochild a, ⟨fun j hj => ?_, hbelow.stop_le⟩, fun _ => if_pos rfl⟩
      show (if j = id then a else m.start j) ≤ a
      split
      · exact le_rfl
      · exact hbelow.start_le j hj
    · exact ⟨m, h, hbelow, fun he => absurd he hempty⟩
  obtain ⟨m', hm⟩ := m₀.exists_grown t id a b b
  have hle : m₀.stop id ≤ a := by
    rcases hbelow₀.stop_le id (lt_size_of_node? hn) with hle | ⟨-, hle⟩ <;> exact hle
  have hentry : (growth.entry t.size).Lies text m' a b := hgrows.lies hp hab (hm.new _ le_rfl)
  have hends : (t.apply id (.grow growth)).1.EndsIn (t.apply id (.grow growth)).2 id := by
    cases growth with
    | capture | fork => exact .here
    | child slot rule growth => exact .child hg.after rfl (hg.endsIn_new (k := 0) (Nat.succ_pos _))
  refine ⟨m', h₀.graft ha hm hid hg hab ?_ ?_ ?_ ?_, hm.below hg ha hbelow₀ (fun _ => ⟨le_rfl, le_rfl⟩)
    (Or.inr ⟨hends, le_rfl⟩)⟩
  · intro j hpos hj
    have hstart := hbelow₀.start_le j (Nat.lt_of_le_of_lt (ha.le_of_endsIn hj) (lt_size_of_node? hn))
    omega
  · intro _
    by_cases hempty : n.entries = []
    · rw [hstart hempty]
      show Stacked _ (growth.entry t.size :: n.entries) a b
      rw [hempty]
      exact .single hentry hab
    · exact .cons ((h₀.entries id n hn hempty).mono fun _ => hm.own_entry ha hn) hle hentry hab
  · intro hne
    obtain ⟨c, d, hstack⟩ := h₀.globals id n hn hne
    exact ⟨c, d, hstack.mono fun _ => hm.own_global ha hn⟩
  · intro k hk rule parent? entry hline
    exact line_lies hgrows hp hab hm.new hline

theorem Laid.lengthen {last new : Entry} (hlast : n.last? = some last)
    (hg : t.Graft id n (n.replaceLast new) 0 t' id) (hbelow : m.Below t id low z) (hlow : low < e)
    (hnew : ∀ c, last.Lies text m c (m.stop id) → m.start id ≤ c → c < m.stop id →
      (∀ m', new.Lies text m' c e) ∧ c < e) :
    ∃ m', t'.Laid text m' ∧ m'.Below t' id low e := by
  obtain ⟨m', hm⟩ := m.exists_grown t id low e e
  obtain ⟨rest, hentries⟩ := List.head?_eq_some_iff.mp hlast
  have hne : n.entries ≠ [] := by simp [hentries]
  have hstack := h.entries id n hn hne
  refine ⟨m', h.graft ha hm hid hg hlow ?_ ?_ ?_ ?_, hm.below hg ha hbelow (fun hpos => by omega)
    (Or.inr ⟨.here, le_rfl⟩)⟩
  · intro j hpos hj
    have hstart := hbelow.start_le j (Nat.lt_of_le_of_lt (ha.le_of_endsIn hj) (lt_size_of_node? hn))
    omega
  · intro _
    have htail : (n.replaceLast new).entries = new :: rest := by rw [Node.replaceLast, hentries, List.tail_cons]
    rw [htail]
    rw [hentries] at hstack
    refine hstack.replace (fun entry hentry => ?_) fun c hlies hstart hlt => ?_
    · exact hm.own_entry ha hn (by rw [hentries]; exact List.mem_cons_of_mem _ hentry)
    · obtain ⟨hlies', hlt'⟩ := hnew c hlies hstart hlt
      exact ⟨hlies' m', hlt'⟩
  · intro hne
    obtain ⟨c, d, hstack⟩ := h.globals id n hn hne
    exact ⟨c, d, hstack.mono fun _ => hm.own_global ha hn⟩
  · intro k hk
    omega

/-- **An instance on whose behalf a global rule takes the phrase.**  It ends where it did. -/
theorem Laid.adopt (hmem : rule ∈ g.global.candidates) (hgrows : Grows g p (g.parts rule) 0 growth)
    (hp : p.span = stretch text a b) (hab : a < b) (hbelow : m.Below t id a a) :
    ∃ m', (t.adopt g id rule growth).1.Laid text m' ∧
      m'.Below (t.adopt g id rule growth).1 (t.adopt g id rule growth).2 a b := by
  obtain ⟨x, hg⟩ := graft_adopt g hn rule growth
  obtain ⟨m', hm⟩ := m.exists_grown t id a b (m.stop id)
  have hline : Grows g p [.choice g.global] 0 (.child (g.global.slot 0) rule growth) :=
    .child le_rfl Skips.refl rfl hmem hgrows
  have hbefore : ∀ j : Nat, j < t.size → m.stop j ≤ a := fun j hj => by
    rcases hbelow.stop_le j hj with hle | ⟨-, hle⟩ <;> exact hle
  -- the new instance is the latest child, and no entry
  have hx : x.node = t.size := by
    rcases hg.latest (Nat.succ_pos _) with ⟨y, hlast, hy⟩ | ⟨y, hhead, hy⟩
    · have hold : y.node ∈ n.children := Node.child_mem_children (List.mem_of_mem_head? hlast)
      exact absurd hy (ha.child_bounds hn hold).2.ne
    · cases hhead
      exact hy
  have hlies : x.Lies m' a b := by
    rw [Child.Lies, hx]
    exact hm.new t.size le_rfl
  refine ⟨m', h.graft ha hm hid hg hab ?_ ?_ ?_ ?_, hm.below hg ha hbelow (fun _ => ⟨le_rfl, le_rfl⟩)
    (Or.inl (hbefore id (lt_size_of_node? hn)))⟩
  · intro j hpos hj
    have hj' : j < t.size := Nat.lt_of_le_of_lt (ha.le_of_endsIn hj) (lt_size_of_node? hn)
    obtain ⟨n₁, hn₁⟩ := node?_of_lt hj'
    rw [← h.stop_eq hj]
    exact h.start_lt hn₁ (ha.filled j n₁ hn₁ hpos)
  · intro (hne : n.entries ≠ [])
    exact (h.entries id n hn hne).mono fun _ => hm.own_entry ha hn
  · intro _
    show ∃ c d, Stacked (Child.Lies m') (x :: n.globals) c d
    rcases hglobals : n.globals with _ | ⟨last, rest⟩
    · exact ⟨a, b, .single hlies hab⟩
    · obtain ⟨c, d, hstack⟩ := h.globals id n hn (by simp [hglobals])
      have hchild : last.node ∈ n.children := Node.global_mem_children (by simp [hglobals])
      have hd : d ≤ a := by
        rw [hglobals] at hstack
        obtain ⟨i, -, -, hlast⟩ := hstack.head
        rw [← hlast.2]
        exact hbefore _ (ha.child_bounds hn hchild).2
      have hkept : Stacked (Child.Lies m') n.globals c d := hstack.mono fun _ => hm.own_global ha hn
      rw [hglobals] at hkept
      exact ⟨c, b, .cons hkept hd hlies hab⟩
  · intro k hk rule' parent? entry hnew
    exact line_lies hline hp hab hm.new hnew

end Steps

/-! ### Taking a phrase -/

/-- **Where no text is open, an instance that takes a phrase behind everything else** keeps the tree laid out. -/
theorem Laid.answers {change : Change} (h : t.Laid text m) (ha : t.Arranged active) (hid : id ∈ t.chain active)
    (hn : t.node? id = some n) (hl : n.Legal g) (hkeep : g.ForksKeep) (hclosed : n.inText = false)
    (hanswers : n.Answers g p change) (hp : p.span = stretch text a b) (hab : a < b) (hbelow : m.Below t id a a) :
    ∃ m', (t.apply id change).1.Laid text m' ∧ m'.Below (t.apply id change).1 (t.apply id change).2 a b := by
  have hstop : m.stop id ≤ a := by
    rcases hbelow.stop_le id (lt_size_of_node? hn) with hle | ⟨-, hle⟩ <;> exact hle
  cases change with
  | grow growth => exact h.push ha hid hn hanswers hp hab hbelow
  | replace new =>
    have hg : t.Graft id n (n.replaceLast new) 0 (t.apply id (.replace new)).1 id := graft_apply hn hanswers
    show ∃ m', (t.apply id (.replace new)).1.Laid text m' ∧ m'.Below (t.apply id (.replace new)).1 id a b
    cases hanswers with
    | @capture capture capture' part hlast hfin hat hresume =>
      refine h.lengthen ha hid hn hlast hg hbelow hab fun c hlies hstart hlt => ⟨fun m' => ?_, by omega⟩
      obtain ⟨hstart', hstop' | ⟨t', -, -, hopen, -⟩⟩ := SimplePart.resume?_span hresume
      · exact Capture.Lies.upTo hlies hp hstart' hstop'
      · rw [Node.inText, hlast] at hclosed
        exact absurd (hopen.symm.trans hclosed) (by simp)
    | @fork f f' alternatives hlast hat hresume =>
      refine h.lengthen ha hid hn hlast hg hbelow hab fun c hlies hstart hlt => ⟨fun m' => ?_, by omega⟩
      obtain ⟨alternatives', hat', hf⟩ := hl.fits _ (List.mem_of_mem_head? hlast)
      cases hat.symm.trans hat'
      exact Alternatives.resume?_lies hf hresume (hkeep _ _ (List.mem_of_getElem? hat)) hlies hp hstop hab
    | @separator x c hlast hat hdue hsep =>
      refine ⟨m, h.modify (fun n' hn' hne c d hstack => ?_) (fun n' hn' _ => ?_) fun _ => rfl,
        hbelow.mono le_rfl le_rfl (size_modify _ _ _)⟩
      · cases hn.symm.trans hn'
        obtain ⟨rest, hentries⟩ := List.head?_eq_some_iff.mp hlast
        rw [Node.replaceLast, hentries]
        rw [hentries] at hstack
        exact hstack.replace (fun _ _ _ _ hlies => hlies) fun c hlies _ hlt => ⟨hlies, hlt⟩
      · cases hn.symm.trans hn'
        intro hempty
        rw [Node.last?, hempty] at hlast
        cases hlast

/-- **Where no text is open, a phrase behind everything else** keeps the tree laid out. -/
theorem Takes.laid (htakes : t.Takes g active p t' taker) (hc : t.Conforms g) (ho : t.OpenOnlyAt active)
    (ha : t.Arranged active) (hkeep : g.ForksKeep) (hclosed : t.inText active = false) (h : t.Laid text m)
    (hp : p.span = stretch text a b) (hab : a < b) (hbelow : m.Below t active a a) :
    ∃ m', t'.Laid text m' ∧ m'.Below t' taker a b := by
  have hnin : ∀ {id : Nat} {n}, t.node? id = some n → n.inText = false := by
    intro id n hn
    by_contra hin
    have hin : n.inText = true := by simpa using hin
    rw [← ho id n hn hin, inText, hn, Option.any_some, hin] at hclosed
    cases hclosed
  have hchange : ∀ {id : Nat} {n change}, id ∈ t.chain active → t.node? id = some n → n.Answers g p change →
      ∃ m', (t.apply id change).1.Laid text m' ∧ m'.Below (t.apply id change).1 (t.apply id change).2 a b :=
    fun hid hn hanswers => h.answers ha hid hn (hc.legal _ _ hn) hkeep (hnin hn) hanswers hp hab
      (hbelow.mono le_rfl le_rfl rfl)
  cases htakes with
  | own hn hanswers => exact hchange (t.mem_chain_self active) hn hanswers
  | ancestor hown hid hn hanswers => exact hchange (List.mem_cons_of_mem _ hid) hn hanswers
  | global hown hmem hgrows =>
    obtain ⟨n, hn⟩ := node?_of_lt ha.active_lt
    exact h.adopt ha (t.mem_chain_self active) hn hmem hgrows hp hab hbelow

theorem Takes.graft_of_inText (htakes : t.Takes g active p t' taker) (hc : t.Conforms g) (hin : t.inText active = true) :
    taker = active ∧ ∃ n e, t.node? active = some n ∧ n.Answers g p (.replace e) ∧
      t.Graft active n (n.replaceLast e) 0 t' active := by
  obtain ⟨e, he⟩ := hc.offer_of_inText hin p
  cases htakes with
  | global hown | ancestor hown => cases he.symm.trans hown
  | @own n change hn hanswers =>
    cases change with
    | replace e => exact ⟨rfl, n, e, hn, hanswers, graft_apply hn hanswers⟩
    | grow growth =>
      obtain ⟨n', hn', hnin⟩ := inText_eq_true.mp hin
      cases hn.symm.trans hn'
      rw [hanswers.inText_of_grow (hc.legal active n hn)] at hnin
      cases hnin

/-- **Where an open text ends** that takes the character at `pos`: with the character, or where that starts what it gives
back. -/
theorem Tracked.ends {t₀ : Tree} {taken : List Phrase} {pos : Nat} {new : Entry}
    (htracked : t.Tracked g (fun _ => True) active t₀ .start text taken low pos) (hkeep : g.ForksKeep)
    (hn : t.node? id = some n) (hin : n.inText = true) (hanswers : n.Answers g p (.replace new))
    (hp : Quotes .start text p.span p.text.toList pos (pos + 1)) (hlow : low ≤ pos)
    (hlen : text.length < 4294967295) :
    ∃ last e, n.last? = some last ∧ low < e ∧ e ≤ pos + 1 ∧ (new.toReread? = none → e = pos + 1) ∧
      ∀ m c z, last.Lies text m c z → c < z → z ≤ pos → (∀ m', new.Lies text m' c e) ∧ c < e := by
  have hpos : pos < text.length := hp.le_length
  cases hanswers with
  | @separator x c hlast hat hdue hsep =>
    rw [Node.inText, hlast] at hin
    cases hin
  | @fork f f' alternatives hlast hat hresume =>
    obtain ⟨alternatives', hat', hf⟩ := (htracked.conforms.legal id n hn).fits _ (List.mem_of_mem_head? hlast)
    cases hat.symm.trans hat'
    refine ⟨_, pos + 1, hlast, by omega, le_rfl, fun _ => rfl, fun m c z hlies hcz hz => ⟨fun m' => ?_, by omega⟩⟩
    exact Alternatives.resume?_lies hf hresume (hkeep _ _ (List.mem_of_getElem? hat)) hlies hp.span_eq hz
      (Nat.lt_succ_self pos)
  | @capture capture capture' part hlast hfin hat hresume =>
    obtain ⟨hstart, hstop | ⟨x, rfl, hgives, hopen, hphrase⟩⟩ := SimplePart.resume?_span hresume
    · exact ⟨_, pos + 1, hlast, by omega, le_rfl, fun _ => rfl, fun m c z hlies hcz hz =>
        ⟨fun m' => Capture.Lies.upTo hlies hp.span_eq hstart hstop, by omega⟩⟩
    · -- the text began at a known place, and what it gives back is found behind its opening phrase
      have hhas : t.Has g (fun _ => True) (.text x) capture := ⟨id, n, hn, _, List.mem_of_mem_head? hlast, .own hat⟩
      obtain ⟨i, hfrom⟩ := htracked.opened _ _ hhas hopen
      have hfrom' : capture.OpenFrom .start text i pos taken i := { hfrom with low_le := le_rfl }
      have hclosed := (hhas.holds htracked.conforms).handBack?_of_inText hopen
      obtain ⟨e, hgivesBack⟩ := (TextPart.resume?_tracked hresume hfrom' hclosed hp).2.2 _ hphrase
      have hlow := hfrom.low_le
      have hie := hgivesBack.low_lt
      refine ⟨_, e, hlast, by omega, hgivesBack.lt_pos.le, fun hnone => ?_, fun m c z hlies hcz hz => ?_⟩
      · rw [Entry.toReread?, Capture.toReread?, hphrase] at hnone
        cases hnone
      · have hspan : stretch text c z = stretch text i pos := (show capture.span = _ from hlies).symm.trans
          hfrom.quotes.span_eq
        have hsame : c = i := cursorAt_inj hlen (by omega) (by have := hfrom.quotes.le; omega) (congrArg Span.start hspan)
        subst hsame
        refine ⟨fun m' => ?_, hie⟩
        have hcursors : capture'.span = ⟨capture'.span.start, capture'.span.stop⟩ := rfl
        show capture'.span = stretch text c e
        rw [hcursors, hstart, hgivesBack.start_eq, hfrom.quotes.span_eq]
        rfl

/-- **A character goes into an open text.**  What ends in the text ends with the character then, or where that starts what
the text gives back. -/
theorem Takes.laid_inText {t₀ : Tree} {taken : List Phrase} {pos : Nat} (htakes : t.Takes g active p t' taker)
    (htracked : t.Tracked g (fun _ => True) active t₀ .start text taken low pos) (ha : t.Arranged active)
    (hkeep : g.ForksKeep) (hin : t.inText active = true) (h : t.Laid text m)
    (hp : Quotes .start text p.span p.text.toList pos (pos + 1)) (hlow : low ≤ pos)
    (hlen : text.length < 4294967295) (hbelow : m.Below t active low pos) :
    ∃ m' e, t'.Laid text m' ∧ m'.Below t' taker low e ∧ e ≤ pos + 1 ∧ (t'.toReread? taker = none → e = pos + 1) ∧
      ∀ phrase start, t'.toReread? taker = some (phrase, start) → start = cursorAt .start text e := by
  obtain ⟨rfl, n, new, hn, hanswers, hg⟩ := htakes.graft_of_inText htracked.conforms hin
  obtain ⟨n', hn', hnin⟩ := inText_eq_true.mp hin
  cases hn.symm.trans hn'
  have hstop : m.stop taker ≤ pos := by
    rcases hbelow.stop_le taker (lt_size_of_node? hn) with hle | ⟨-, hle⟩ <;> omega
  have hback : t'.toReread? taker = new.toReread? := by
    rw [toReread?, hg.after, Option.bind_some]
    rfl
  obtain ⟨last, e, hlast, hlowe, hle, hnone, hlies⟩ := htracked.ends hkeep hn hnin hanswers hp hlow hlen
  obtain ⟨m', hlaid, hbelow'⟩ := h.lengthen ha (t.mem_chain_self taker) hn hlast hg hbelow hlowe
    fun c hlast _ hlt => hlies m c _ hlast hlt hstop
  refine ⟨m', e, hlaid, hbelow', hle, by rwa [hback], fun phrase start hreread => ?_⟩
  obtain ⟨rest, hentries⟩ := List.head?_eq_some_iff.mp hlast
  have hstack := h.entries taker n hn (by simp [hentries])
  rw [hentries] at hstack
  obtain ⟨c, -, hlt, hold⟩ := hstack.head
  exact ((hlies m c _ hold hlt hstop).1 m).reread (hback.symm.trans hreread)

/-! ### Leaving a text -/

theorem Laid.settle (h : t.Laid text m) (id : Nat) : (t.settle id).Laid text m := by
  have hsettled : ∀ {e : Entry} {a b : Nat}, e.Lies text m a b → e.settled.Lies text m a b := by
    intro e a b hlies
    cases e with
    | capture | child => exact hlies
    | fork f =>
      intro branch hbranch
      obtain ⟨branch, hold, rfl⟩ := List.mem_map.mp hbranch
      exact Branch.settled_stacked (hlies branch hold)
  refine h.modify (fun n _ hne a b hstack => ?_) (fun n _ hne hempty => hne ?_) fun _ => rfl
  · obtain ⟨last, rest, hentries⟩ := List.exists_cons_of_ne_nil hne
    show Stacked _ (n.entries.modifyHead Entry.settled) a b
    rw [hentries] at hstack ⊢
    exact hstack.replace (fun _ _ _ _ hlies => hlies) fun c hlies _ hlt => ⟨hsettled hlies, hlt⟩
  · rw [hempty]
    rfl

theorem EndsIn.settle {j : Nat} (h : t.EndsIn id j) (k : Nat) : (t.settle k).EndsIn id j := by
  induction h with
  | here => exact .here
  | @child j n x hn hlast h ih =>
    obtain ⟨rest, hentries⟩ := List.head?_eq_some_iff.mp hlast
    by_cases hj : k = j
    · subst hj
      refine .child (n := { n with entries := .child x :: rest }) ?_ rfl ih
      rw [Tree.settle, node?_modify, if_pos rfl, hn, Option.map_some, hentries]
      rfl
    · refine .child ?_ hlast ih
      rw [Tree.settle, node?_modify, if_neg hj]
      exact hn

end Tree

theorem Layout.Below.settle {t : Tree} {id : Nat} (h : m.Below t id low high) (k : Nat) :
    m.Below (t.settle k) id low high where
  start_le := by
    intro j hj
    rw [Tree.size_settle] at hj
    exact h.start_le j hj
  stop_le := by
    intro j hj
    rw [Tree.size_settle] at hj
    rcases h.stop_le j hj with hle | ⟨hends, hle⟩
    · exact Or.inl hle
    · exact Or.inr ⟨hends.settle k, hle⟩

end PhraseTree
