import PhraseTree.Proofs.Tree.Nodes

/-!
# Trees that conform to their grammar

* `Entry.Fits parts e` — the entry is of the kind of its part and holds what the part allows;
* `Entry.Follows parts earlier later` — the two may stand next to each other;
* `Node.Legal g n` — every entry of `n` fits, and neighbours follow each other;
* `Tree.Conforms g t` — all instances are legal, and children lead back to the instance whose candidates they are.

`Tree.Takes.conforms`: a tree that conforms still does after it took a phrase.
-/

namespace PhraseTree

variable {g : Grammar} {p : Phrase}

/-! ### Entries -/

namespace Entry

/-- The entry is of the kind of its part, and holds what the part allows. -/
def Fits (parts : List (Part RuleId)) : Entry → Prop
  | .capture c => ∃ part, parts[c.part]? = some (.simple part) ∧ part.Holds c
  | .fork f => ∃ a, parts[f.part]? = some (.alternatives a) ∧ a.Holds f
  | .child x => ∃ c, parts[x.part]? = some (.choice c) ∧ x.separatorOptional = c.separatorOptional

/-- **Neighbouring entries.**  The earlier one is no open text.  The later one fills a later part, past optional ones
only, or the same choice once more, where no separator is missing. -/
def Follows (parts : List (Part RuleId)) (earlier later : Entry) : Prop :=
  earlier.inText = false ∧
    ((earlier.part < later.part ∧ Skips Part.isOptional parts (earlier.part + 1) later.part) ∨
      (earlier.part = later.part ∧ ∃ c x, parts[later.part]? = some (.choice c) ∧ earlier = .child x ∧
        c.singular = false ∧ (x.separated = true ∨ c.separatorOptional = true)))

variable {parts : List (Part RuleId)} {e e' later later' : Entry}

theorem Fits.lt_length (h : e.Fits parts) : e.part < parts.length := by
  cases e <;> obtain ⟨_, hat, -⟩ := h <;> exact (List.getElem?_eq_some_iff.mp hat).1

theorem Follows.part_le (h : e.Follows parts later) : e.part ≤ later.part := by
  rcases h.2 with ⟨hlt, -⟩ | ⟨heq, -⟩ <;> omega

/-- Of the later entry only the part matters. -/
theorem Follows.congr (h : e.Follows parts later) (hpart : later'.part = later.part) : e.Follows parts later' := by
  unfold Follows
  rw [hpart]
  exact h

theorem Fits.settled (h : e.Fits parts) : e.settled.Fits parts := by
  cases e with
  | capture c => obtain ⟨part, hat, hc⟩ := h; exact ⟨part, hat, hc.settled⟩
  | fork f => obtain ⟨a, hat, hf⟩ := h; exact ⟨a, hat, hf.settled⟩
  | child x => exact h

theorem part_settled (e : Entry) : e.settled.part = e.part := by cases e <;> rfl

theorem Fits.resume_of_inText (h : e.Fits parts) (hin : e.inText = true) :
    e.finished = false ∧ ∃ part e', parts[e.part]? = some part ∧
      (part.resume (g.sprout p) p e).found? = some (.replace e') := by
  cases e with
  | child x => cases hin
  | capture c =>
    obtain ⟨part, hat, hc⟩ := h
    obtain ⟨c', hc'⟩ := Option.isSome_iff_exists.mp (SimplePart.resume?_isSome_of_inText (p := p) hc hin)
    exact ⟨hc.finished_of_inText hin, .simple part, .capture c', hat, by simp [Part.resume, hc']⟩
  | fork f =>
    obtain ⟨a, hat, hf⟩ := h
    obtain ⟨f', hf'⟩ := Option.isSome_iff_exists.mp
      (Alternatives.resume?_isSome_of_inText (i := f.part) (p := p) hf hin)
    exact ⟨rfl, .alternatives a, .fork f', hat, by simp [Part.resume, hf']⟩

/-- An entry that takes nothing more is no open text. -/
theorem Fits.inText_of_stuck (h : e.Fits parts)
    (hstuck : e.finished = false → e.blocks = false ∧
      ∃ part, parts[e.part]? = some part ∧ (part.resume (g.sprout p) p e).found? = none) : e.inText = false := by
  by_contra hin
  obtain ⟨hfin, part, e', hat, hsome⟩ := h.resume_of_inText (g := g) (p := p) (by simpa using hin)
  obtain ⟨-, part', hat', hnone⟩ := hstuck hfin
  cases hat.symm.trans hat'
  rw [hsome] at hnone
  cases hnone

end Entry

namespace Grows

variable {parts : List (Part RuleId)} {i : Nat} {growth : Growth}

theorem entry (h : Grows g p parts i growth) (base : NodeId) :
    (growth.entry base).Fits parts ∧ i ≤ (growth.entry base).part ∧
      Skips Part.isOptional parts i (growth.entry base).part := by
  cases h with
  | capture hle hskip hat hbegin => exact ⟨⟨_, hat, SimplePart.begin?_holds hbegin⟩, hle, hskip⟩
  | fork hle hskip hat hbegin => exact ⟨⟨_, hat, Alternatives.begin?_holds hbegin⟩, hle, hskip⟩
  | child hle hskip hat hmem hgrows => exact ⟨⟨_, hat, rfl⟩, hle, hskip⟩

/-- A child of a growth is the first new instance, of a rule that its part allows. -/
theorem head_node (h : Grows g p parts i growth) {parent base : NodeId} {x : Child} {c : RuleChoice RuleId}
    (hx : growth.entry base = .child x) (hat : parts[x.part]? = some (.choice c)) :
    ∃ n, (growth.nodes parent base)[0]? = some n ∧ x.node = base ∧ n.parent? = some parent ∧
      n.rule ∈ c.candidates := by
  cases h with
  | capture | fork => cases hx
  | child hle hskip hat' hmem hgrows =>
    cases hx
    cases hat'.symm.trans hat
    exact ⟨_, rfl, rfl, rfl, hmem⟩

end Grows

/-! ### Instances -/

/-- **A legal instance.**  Its entries are kept latest first. -/
structure Node.Legal (g : Grammar) (n : Node) : Prop where
  fits : ∀ e ∈ n.entries, e.Fits (g.parts n.rule)
  follows : n.entries.IsChain fun later earlier => earlier.Follows (g.parts n.rule) later
  first : ∀ e, n.entries.getLast? = some e → Skips Part.isOptional (g.parts n.rule) 0 e.part

namespace Node.Legal

variable {n : Node} {e e' : Entry} {change : Change} {growth : Growth} {base : NodeId}

theorem fresh (rule : RuleId) (parent? : Option NodeId) : (Node.fresh rule parent?).Legal g :=
  ⟨by simp [Node.fresh], by simp [Node.fresh], by simp [Node.fresh]⟩

theorem sorted (h : n.Legal g) : n.inOrder.Pairwise fun a b => a.part ≤ b.part := by
  have hchain : n.entries.IsChain fun later earlier => earlier.part ≤ later.part :=
    h.follows.imp fun _ _ => Entry.Follows.part_le
  have : IsTrans Entry fun later earlier => earlier.part ≤ later.part := ⟨fun _ _ _ h₁ h₂ => le_trans h₂ h₁⟩
  rw [Node.inOrder, List.pairwise_reverse]
  exact List.isChain_iff_pairwise.mp hchain

theorem inText_tail (h : n.Legal g) : ∀ e ∈ n.entries.tail, e.inText = false := by
  have hchain := h.follows
  generalize n.entries = entries at hchain ⊢
  induction entries with
  | nil => simp
  | cons e rest ih =>
    cases rest with
    | nil => simp
    | cons d rest =>
      obtain ⟨hd, hrest⟩ := List.isChain_cons_cons.mp hchain
      intro x hx
      rcases List.mem_cons.mp hx with rfl | hx
      · exact hd.1
      · exact ih hrest x hx

theorem last?_of_inText (h : n.Legal g) (he : e ∈ n.entries) (hin : e.inText = true) : n.last? = some e := by
  rcases hentries : n.entries with _ | ⟨last, rest⟩
  · simp [hentries] at he
  · rw [hentries] at he
    rcases List.mem_cons.mp he with rfl | he
    · simp [Node.last?, hentries]
    · rw [h.inText_tail e (by simp [hentries, he])] at hin
      cases hin

theorem offer_of_inText (h : n.Legal g) (hin : n.inText = true) :
    ∃ e, (n.offer g p).found? = some (.replace e) := by
  obtain ⟨last, hlast, hlin⟩ : ∃ last, n.last? = some last ∧ last.inText = true := by
    simpa [Node.inText, Option.any_eq_true] using hin
  obtain ⟨hfin, part, e, hat, hsome⟩ :=
    (h.fits last (List.mem_of_mem_head? hlast)).resume_of_inText (g := g) (p := p) hlin
  exact ⟨e, by simp [Node.offer, hlast, hfin, hat, hsome]⟩

/-- The latest entry gives way to one of the same part. -/
theorem replaceLast (h : n.Legal g) (hlast : n.last? = some e) (hpart : e'.part = e.part)
    (hfits : e'.Fits (g.parts n.rule)) : (n.replaceLast e').Legal g := by
  obtain ⟨rest, hn⟩ : ∃ rest, n.entries = e :: rest := List.head?_eq_some_iff.mp hlast
  have htail : n.entries.tail = rest := by simp [hn]
  obtain ⟨hfit, hfollow, hfirst⟩ := h
  rw [hn] at hfit hfollow hfirst
  refine ⟨?_, ?_, ?_⟩
  · intro x hx
    rw [Node.replaceLast, htail] at hx
    rcases List.mem_cons.mp hx with rfl | hx
    · exact hfits
    · exact hfit x (by simp [hx])
  · show List.IsChain _ (e' :: n.entries.tail)
    rw [htail]
    cases rest with
    | nil => simp
    | cons d rest =>
      obtain ⟨hd, hrest⟩ := List.isChain_cons_cons.mp hfollow
      exact List.isChain_cons_cons.mpr ⟨hd.congr hpart, hrest⟩
  · intro x hx
    rw [Node.replaceLast, htail] at hx
    cases rest with
    | nil =>
      cases hx
      show Skips _ _ 0 e'.part
      rw [hpart]
      exact hfirst e rfl
    | cons d rest => exact hfirst x (by simpa using hx)

/-- A further entry follows the latest one. -/
theorem push (h : n.Legal g) (hfits : e.Fits (g.parts n.rule))
    (hfirst : n.last? = none → Skips Part.isOptional (g.parts n.rule) 0 e.part)
    (hnext : ∀ last, n.last? = some last → last.Follows (g.parts n.rule) e) : (n.push e).Legal g := by
  refine ⟨?_, ?_, ?_⟩
  · intro x hx
    rcases List.mem_cons.mp hx with rfl | hx
    · exact hfits
    · exact h.fits x hx
  · show List.IsChain _ (e :: n.entries)
    rcases hn : n.entries with _ | ⟨d, rest⟩
    · simp
    · have hfollow := h.follows
      rw [hn] at hfollow
      exact List.isChain_cons_cons.mpr ⟨hnext d (by simp [Node.last?, hn]), hfollow⟩
  · intro x hx
    rcases hn : n.entries with _ | ⟨d, rest⟩
    · have : x = e := by simpa [Node.push, hn] using hx.symm
      subst this
      exact hfirst (by simp [Node.last?, hn])
    · exact h.first x (by simpa [Node.push, hn] using hx)

theorem grown {rule : RuleId} {parent? : Option NodeId} (h : Grows g p (g.parts rule) 0 growth) :
    (⟨rule, parent?, [growth.entry base], []⟩ : Node).Legal g := by
  obtain ⟨hfits, -, hskip⟩ := h.entry base
  exact ⟨by simpa using hfits, by simp, by simpa using hskip⟩

/-- **Every answer keeps an instance legal**: an entry that gives way. -/
theorem replace (h : n.Legal g) (ha : n.Answers g p (.replace e)) : (n.replaceLast e).Legal g := by
  cases ha with
  | capture hlast hfin hat hresume =>
    obtain ⟨part, hat', hc⟩ := h.fits _ (List.mem_of_mem_head? hlast)
    cases hat.symm.trans hat'
    have hpart := SimplePart.resume?_part hresume
    exact h.replaceLast hlast hpart ⟨_, by rw [hpart]; exact hat, SimplePart.resume?_holds hc hfin hresume⟩
  | fork hlast hat hresume =>
    obtain ⟨a, hat', hf⟩ := h.fits _ (List.mem_of_mem_head? hlast)
    cases hat.symm.trans hat'
    have hpart := (Alternatives.resume?_spec hresume).1
    exact h.replaceLast hlast hpart ⟨_, by rw [hpart]; exact hat, Alternatives.resume?_holds hf hresume⟩
  | separator hlast hat hdue hsep =>
    obtain ⟨c, hat', hx⟩ := h.fits _ (List.mem_of_mem_head? hlast)
    exact h.replaceLast hlast rfl ⟨c, hat', hx⟩

/-- **Every answer keeps an instance legal**: an entry that follows. -/
theorem grow (h : n.Legal g) (ha : n.Answers g p (.grow growth)) (base : NodeId) :
    (n.push (growth.entry base)).Legal g := by
  cases ha with
  | again hlast hat hsep hplural hmem hgrows =>
    obtain ⟨c, hat', hx⟩ := h.fits _ (List.mem_of_mem_head? hlast)
    refine h.push ⟨_, hat, rfl⟩ (by simp [hlast]) fun last hl => ?_
    cases hlast.symm.trans hl
    cases hat.symm.trans hat'
    exact ⟨rfl, Or.inr ⟨rfl, _, _, hat, rfl, hplural, by rwa [← hx]⟩⟩
  | first hlast hgrows =>
    obtain ⟨hfits, -, hskip⟩ := hgrows.entry base
    exact h.push hfits (fun _ => hskip) (by simp [hlast])
  | onward hlast hstuck hgrows =>
    obtain ⟨hfits, hle, hskip⟩ := hgrows.entry base
    refine h.push hfits (by simp [hlast]) fun last hl => ?_
    cases hlast.symm.trans hl
    have hin := (h.fits _ (List.mem_of_mem_head? hlast)).inText_of_stuck hstuck
    exact ⟨hin, Or.inl ⟨by omega, hskip⟩⟩

theorem settled (h : n.Legal g) : ({ n with entries := n.entries.modifyHead Entry.settled } : Node).Legal g := by
  rcases hn : n.entries with _ | ⟨e, rest⟩
  · simp only [List.modifyHead_nil]
    rw [← hn]
    exact h
  · have hlast : n.last? = some e := by simp [Node.last?, hn]
    have := h.replaceLast hlast e.part_settled (h.fits e (by simp [hn])).settled
    simpa [Node.replaceLast, hn] using this

end Node.Legal

/-! ### Trees -/

/-- The children that fill the choices of the instance `id` are of its candidates and lead back to it. -/
def Node.Linked (g : Grammar) (t : Tree) (id : NodeId) (n : Node) : Prop :=
  ∀ x c, .child x ∈ n.entries → (g.parts n.rule)[x.part]? = some (.choice c) →
    ∃ m, t.node? x.node = some m ∧ m.parent? = some id ∧ m.rule ∈ c.candidates

theorem Node.Linked.mono {t t' : Tree} {id : NodeId} {n : Node} (h : n.Linked g t id) (hk : t.Keeps t') :
    n.Linked g t' id := by
  intro x c hx hc
  obtain ⟨m, hm, hparent, hrule⟩ := h x c hx hc
  obtain ⟨m', hm', hr, hp⟩ := hk _ m hm
  exact ⟨m', hm', by rw [hp]; exact hparent, by rw [hr]; exact hrule⟩

/-- **A tree that conforms to its grammar.** -/
structure Tree.Conforms (g : Grammar) (t : Tree) : Prop where
  legal : t.All fun _ n => n.Legal g
  linked : t.All (Node.Linked g t)

namespace Tree

variable {t t' : Tree} {id active taker : NodeId} {n : Node} {growth : Growth} {put : Node → Node}

theorem node?_root (h : Tree.root.node? id = some n) : n = .fresh Grammar.topLevel none := by
  have hid : id = 0 := by simpa [root, size] using lt_size_of_node? h
  subst hid
  simpa [node?, root] using h.symm

theorem root_conforms (g : Grammar) : Tree.root.Conforms g := by
  constructor
  · intro id n hn
    rw [node?_root hn]
    exact Node.Legal.fresh _ _
  · intro id n hn x c hx
    rw [node?_root hn] at hx
    simp [Node.fresh] at hx

/-- A change of one instance that leaves its children as they are. -/
theorem inText_eq_true {id : NodeId} : t.inText id = true ↔ ∃ n, t.node? id = some n ∧ n.inText = true := by
  simp [inText, Option.any_eq_true]

/-- An instance in an open text lets it go on with any phrase. -/
theorem Conforms.offer_of_inText {id : NodeId} (h : t.Conforms g) (hin : t.inText id = true) (p : Phrase) :
    ∃ e, (t.offer g p id).found? = some (.replace e) := by
  obtain ⟨n, hn, hnin⟩ := inText_eq_true.mp hin
  rw [offer, hn]
  exact (h.legal id n hn).offer_of_inText hnin

theorem Conforms.modify (h : t.Conforms g) (hrule : ∀ n, (put n).rule = n.rule)
    (hparent : ∀ n, (put n).parent? = n.parent?)
    (hput : ∀ n, t.node? id = some n → n.Legal g → (put n).Legal g)
    (hchild : ∀ n x, t.node? id = some n → .child x ∈ (put n).entries →
      ∃ y, .child y ∈ n.entries ∧ y.part = x.part ∧ y.node = x.node) :
    (⟨t.nodes.modify id put⟩ : Tree).Conforms g := by
  have hlinked : t.All (Node.Linked g ⟨t.nodes.modify id put⟩) :=
    fun j n hn => (h.linked j n hn).mono (keeps_modify hrule hparent)
  refine ⟨h.legal.modify hput, hlinked.modify fun n hn hl x c hx hc => ?_⟩
  obtain ⟨y, hy, hpart, hnode⟩ := hchild n x hn hx
  rw [← hnode]
  exact hl y c hy (by rw [hpart, ← hrule n]; exact hc)

/-- A change of one instance with new ones below it. -/
theorem Conforms.extend {parts : List (Part RuleId)} {i : Nat} (h : t.Conforms g)
    (hgrows : Grows g p parts i growth) (hrule : ∀ n, (put n).rule = n.rule)
    (hparent : ∀ n, (put n).parent? = n.parent?)
    (hput : ∀ n, t.node? id = some n → n.Legal g → (put n).Legal g)
    (hchild : ∀ n x, t.node? id = some n → .child x ∈ (put n).entries →
      .child x ∈ n.entries ∨ (parts = g.parts n.rule ∧ growth.entry t.size = .child x)) :
    (t.extend id growth put).Conforms g := by
  have hlinked : t.All (Node.Linked g (t.extend id growth put)) :=
    fun j n hn => (h.linked j n hn).mono (keeps_extend hrule hparent)
  refine ⟨h.legal.extend hput ?_, hlinked.extend (fun n hn hl x c hx hc => ?_) ?_⟩
  · intro k n hn
    obtain ⟨rule, inner, rfl, -, -, hinner⟩ := Growth.nodes_getElem? hn
    exact Node.Legal.grown (hinner g p parts i hgrows)
  · rw [hrule n] at hc
    rcases hchild n x hn hx with hold | ⟨hparts, hnew⟩
    · exact hl x c hold hc
    · -- the child that the change puts down is the first of the new instances
      subst hparts
      obtain ⟨m, hm, hnode, hmp, hmr⟩ := hgrows.head_node hnew hc
      exact ⟨m, by rw [hnode, ← hm]; exact node?_extend_add t id 0 growth put, hmp, hmr⟩
  · intro k n hn x c hx hc
    obtain ⟨rule, inner, rfl, -, hnodes, hinner⟩ := Growth.nodes_getElem? hn
    have hentry : inner.entry (t.size + k + 1) = .child x := by simpa [eq_comm] using hx
    obtain ⟨m, hm, hnode, hmp, hmr⟩ := (hinner g p parts i hgrows).head_node hentry hc
    refine ⟨m, ?_, hmp, hmr⟩
    rw [hnode, Nat.add_assoc, node?_extend_add, ← hm, hnodes]
    simp

/-- **A tree that conforms to its grammar still does after it took a phrase.** -/
theorem Takes.conforms (ht : t.Takes g active p t' taker) (h : t.Conforms g) : t'.Conforms g := by
  have happly : ∀ {id n change}, t.node? id = some n → n.Answers g p change → (t.apply id change).1.Conforms g := by
    intro id n change hn ha
    cases change with
    | replace e =>
      refine h.modify (fun _ => rfl) (fun _ => rfl) (fun m hm hl => ?_) fun m x hm hx => ?_
      · cases hn.symm.trans hm
        exact hl.replace ha
      · cases hn.symm.trans hm
        rcases List.mem_cons.mp hx with rfl | hx
        · cases ha with
          | separator hlast => exact ⟨_, List.mem_of_mem_head? hlast, rfl, rfl⟩
        · exact ⟨x, List.mem_of_mem_tail hx, rfl, rfl⟩
    | grow growth =>
      obtain ⟨i, hgrows⟩ := ha.grows
      refine h.extend hgrows (fun _ => rfl) (fun _ => rfl) (fun m hm hl => ?_) fun m x hm hx => ?_
      · cases hn.symm.trans hm
        exact hl.grow ha _
      · cases hn.symm.trans hm
        rcases List.mem_cons.mp hx with hx | hx
        · exact Or.inr ⟨rfl, hx.symm⟩
        · exact Or.inl hx
  cases ht with
  | own hn ha => exact happly hn ha
  | ancestor hown hid hn ha => exact happly hn ha
  | global hown hmem hgrows =>
    have hline : Grows g p [.choice g.global] 0 (.child (g.global.slot 0) _ _) :=
      .child le_rfl Skips.refl rfl hmem hgrows
    exact h.extend hline (fun _ => rfl) (fun _ => rfl) (fun m hm hl => ⟨hl.fits, hl.follows, hl.first⟩)
      fun m x hm hx => Or.inl hx

theorem Conforms.settle (h : t.Conforms g) (id : NodeId) : (t.settle id).Conforms g := by
  refine h.modify (fun _ => rfl) (fun _ => rfl) (fun n _ hl => hl.settled) fun n x _ hx => ?_
  rcases hn : n.entries with _ | ⟨e, rest⟩
  · simp [hn] at hx
  · simp only [hn, List.modifyHead_cons, List.mem_cons] at hx
    rcases hx with hx | hx
    · cases e with
      | capture c | fork f => cases hx
      | child y => cases hx; exact ⟨x, by simp, rfl, rfl⟩
    · exact ⟨x, by simp [hx], rfl, rfl⟩

end Tree

end PhraseTree
