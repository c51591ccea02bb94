import PhraseTree.Proofs.Grammar.Comments
import PhraseTree.Proofs.Tree.Pruning
import Mathlib.Data.List.Find

/-!
# Trees with comments

* `Tree.Commented g rule t active` — the instances of `rule` are those that do not stand, so they are the comments;
* `Tree.Commented.takes`, `Tree.Commented.settle`: this is kept where a phrase is taken and where something is given
  back;
* `Tree.seat t id` — the innermost instance around `id`, or `id` itself, that is no comment;
* `Tree.Commented.chain_eq`: between `id` and its seat there are comments alone, which ask for nothing more and, if they
  are closed, refuse every phrase (`Tree.Commented.refused`, `Tree.Commented.needsMore`);
* `Tree.Commented.offerInOrder_eq`: so the instances around `id` answer as those around its seat do in the pruned tree;
* `Tree.note? t id` — what the comment `id` has taken, if it is open;
* `Tree.Commented.apply_note`, `Tree.Commented.adopt_start`: what a comment takes, and a comment that begins, cannot be
  seen in the pruned tree, and the seat stays the same.
-/

namespace PhraseTree

variable {g : Grammar} {rule other : RuleId} {x : TextPart} {start : String} {p : Phrase}

/-! ### The rules of new instances -/

theorem Growth.rule_of_mem_nodes {growth : Growth} {parent base : NodeId} {m : Node}
    (h : m ∈ growth.nodes parent base) : m.rule ∈ growth.rules := by
  induction growth generalizing parent base with
  | capture | fork => cases h
  | child slot candidate growth ih =>
    rcases List.mem_cons.mp h with rfl | h
    · exact List.mem_cons_self
    · exact List.mem_cons_of_mem _ (ih h)

namespace Grammar.Comments

variable {growth : Growth} {i : Nat}

/-- No rule makes a comment, except on behalf of the global choice. -/
theorem not_mem_rules (h : g.Comments rule x start) (hgrows : Grows g p (g.parts other) i growth) :
    rule ∉ growth.rules := by
  induction growth generalizing other i with
  | capture | fork => exact List.not_mem_nil
  | child slot candidate growth ih =>
    cases hgrows with
    | child _ _ hat hmem hgrows =>
      intro hrule
      rcases List.mem_cons.mp hrule with rfl | hrule
      · exact h.unnamed other _ (List.mem_of_getElem? hat) hmem
      · exact ih hgrows hrule

/-- A comment has no instances below it, but for other comments. -/
theorem depth_eq_zero (h : g.Comments rule x start) (hgrows : Grows g p (g.parts rule) i growth) :
    growth.depth = 0 := by
  rw [h.parts] at hgrows
  cases hgrows with
  | capture | fork => rfl
  | child _ _ hat =>
    have hmem := List.mem_of_getElem? hat
    cases List.mem_singleton.mp hmem

end Grammar.Comments

/-- **A tree with comments**: those of `rule` are the instances that do not stand.  The instance `active` takes the next
phrase first. -/
structure Tree.Commented (g : Grammar) (rule : RuleId) (t : Tree) (active : Nat) : Prop where
  conforms : t.Conforms g
  openOnly : t.OpenOnlyAt active
  arranged : t.Arranged active
  stands_iff : ∀ id n, t.node? id = some n → (t.stands id = true ↔ n.rule ≠ rule)

namespace Tree

variable {t t' : Tree} {id active taker depth j k : Nat} {n n' : Node}

/-! ### Taking phrases -/

theorem Graft.stands_iff (h : t.Graft id n n' depth t' taker) (ho : t.Ordered)
    (hglobals : ∀ j < t.size, n'.globals.any (·.node == j) = n.globals.any (·.node == j))
    (hall : ∀ id n, t.node? id = some n → (t.stands id = true ↔ n.rule ≠ rule))
    (hnew : ∀ k < depth, ∀ m, t'.node? (t.size + k) = some m → (t'.stands (t.size + k) = true ↔ m.rule ≠ rule)) :
    ∀ id n, t'.node? id = some n → (t'.stands id = true ↔ n.rule ≠ rule) := by
  intro j m hm
  rcases h.old_or_new (lt_size_of_node? hm) with hj | ⟨k, hk, rfl⟩
  · rw [h.stands_old ho hglobals hj]
    by_cases hjid : j = id
    · subst hjid
      cases hm.symm.trans h.after
      rw [h.rule]
      exact hall j n h.before
    · rw [h.others j hj hjid] at hm
      exact hall j m hm
  · exact hnew k hk m hm

namespace Commented

theorem root (hbelow : rule ≠ Grammar.topLevel) : Tree.root.Commented g rule 0 where
  conforms := root_conforms g
  openOnly := root_openOnlyAt
  arranged := root_arranged
  stands_iff := by
    intro id n hn
    have hroot := node?_root hn
    have hstands : Tree.root.stands id = true := stands_of_root (by rw [parent?_eq hn, hroot]; rfl)
    rw [hstands, hroot]
    simpa [Node.fresh] using hbelow.symm

variable (h : t.Commented g rule active)

include h

theorem settle : (t.settle active).Commented g rule active where
  conforms := h.conforms.settle active
  openOnly := h.openOnly.settle active
  arranged := h.arranged.settle
  stands_iff := by
    obtain ⟨n, hn⟩ := node?_of_lt h.arranged.active_lt
    exact (graft_settle hn).stands_iff h.arranged.ordered (fun _ _ => rfl) h.stands_iff
      fun k hk => absurd hk (Nat.not_lt_zero k)

/-- **A tree with comments is one after it took a phrase.** -/
theorem takes (hg : g.Comments rule x start) (ht : t.Takes g active p t' taker) : t'.Commented g rule taker := by
  refine ⟨ht.conforms h.conforms, ht.openOnlyAt h.conforms h.openOnly, h.arranged.takes ht, ?_⟩
  have ho := h.arranged.ordered
  have happly : ∀ {id n c}, t.node? id = some n → n.Answers g p c →
      ∀ j m, (t.apply id c).1.node? j = some m → ((t.apply id c).1.stands j = true ↔ m.rule ≠ rule) := by
    intro id n c hn ha
    have hgraft := graft_apply hn ha
    have hglobals : (c.on t.size n).globals = n.globals := by cases c <;> rfl
    have hsame : ∀ j < t.size, (c.on t.size n).globals.any (·.node == j) = n.globals.any (·.node == j) := by
      intro j _
      rw [hglobals]
    have hold : ∀ y ∈ (c.on t.size n).globals, y.node < t.size := by
      rw [hglobals]
      exact fun y hy => h.arranged.global_lt hn hy
    refine hgraft.stands_iff ho hsame h.stands_iff fun k hk m hm => ?_
    rw [hgraft.stands_new ho hsame hold hk, h.stands_iff id n hn]
    cases c with
    | replace e => exact absurd hk (Nat.not_lt_zero k)
    | grow growth =>
      obtain ⟨i, hgrows⟩ := ha.grows
      have hmem : m ∈ growth.nodes id t.size := List.mem_of_getElem? ((node?_extend_add ..).symm.trans hm)
      have hrule : m.rule ≠ rule := fun heq => hg.not_mem_rules hgrows (heq ▸ Growth.rule_of_mem_nodes hmem)
      refine iff_of_true (fun heq => ?_) hrule
      rw [heq] at hgrows
      have hdepth := hg.depth_eq_zero hgrows
      have hlt : k < growth.depth := hk
      omega
  cases ht with
  | own hn ha => exact happly hn ha
  | ancestor hown hid hn ha => exact happly hn ha
  | @global candidate growth hown hmem hgrows =>
    obtain ⟨n, hn⟩ := node?_of_lt h.arranged.active_lt
    obtain ⟨y, hgraft⟩ := graft_adopt g hn candidate growth
    have hcandidate : candidate = rule := by
      rw [hg.global] at hmem
      exact List.mem_singleton.mp hmem
    subst hcandidate
    have hdepth := hg.depth_eq_zero hgrows
    refine hgraft.stands_iff ho hgraft.globals_adopted h.stands_iff fun k hk m hm => ?_
    rw [hgraft.stands_adopted ho hk]
    -- a comment makes no further instance, so this is the comment
    obtain rfl : k = 0 := by omega
    have hnode : (t.adopt g active candidate growth).1.node? (t.size + 0) =
        some ⟨candidate, some active, [growth.entry (t.size + 1)], []⟩ := node?_extend_add ..
    cases hnode.symm.trans hm
    simp

end Commented

/-! ### Seats -/

/-- The innermost instance around `id`, or `id` itself, that stands. -/
def seat (t : Tree) (id : NodeId) : NodeId := ((t.chain id).find? t.stands).getD 0

theorem seat_of_stands (hs : t.stands id = true) : t.seat id = id := by
  rw [seat, chain, List.find?_cons_of_pos hs, Option.getD_some]

theorem Ordered.seat_of_parent (ho : t.Ordered) (hs : t.stands id = false) {q : Nat} (hq : t.parent? id = some q) :
    t.seat id = t.seat q := by
  rw [seat, ho.chain_of_parent hq, List.find?_cons_of_neg (by simp [hs])]
  rfl

theorem seat_congr (hchain : t'.chain id = t.chain id) (hstands : ∀ j ∈ t.chain id, t'.stands j = t.stands j) :
    t'.seat id = t.seat id := by
  unfold seat
  rw [hchain, List.find?_congr hstands]

theorem offerInOrder_append {notes : List NodeId} (ids : List NodeId)
    (h : ∀ j ∈ notes, (t.offer g p j).found? = none) :
    (t.offerInOrder g p (notes ++ ids)).taken? = (t.offerInOrder g p ids).taken? ∧
      (t.offerInOrder g p (notes ++ ids)).refused = notes ++ (t.offerInOrder g p ids).refused := by
  induction notes with
  | nil => exact ⟨rfl, rfl⟩
  | cons j notes ih =>
    obtain ⟨htaken, hrefused⟩ := ih fun i hi => h i (List.mem_cons_of_mem _ hi)
    simp only [List.cons_append, offerInOrder, h j List.mem_cons_self]
    exact ⟨htaken, congrArg (j :: ·) hrefused⟩

theorem offerInOrder_of_refused {ids : List NodeId} (h : ∀ j ∈ ids, (t.offer g p j).found? = none) :
    (t.offerInOrder g p ids).taken? = none := by
  have hnone := (offerInOrder_append [] h).1
  rwa [List.append_nil] at hnone

theorem mem_of_mem_refused {ids : List NodeId} (h : j ∈ (t.offerInOrder g p ids).refused) : j ∈ ids := by
  induction ids with
  | nil => cases h
  | cons id ids ih =>
    simp only [offerInOrder] at h
    split at h
    · cases h
    · rcases List.mem_cons.mp h with rfl | h
      · exact List.mem_cons_self
      · exact List.mem_cons_of_mem _ (ih h)

theorem unfinished_pruned {ids : List NodeId} (h : ∀ id ∈ ids, t.stands id = true ∧ id < t.size) :
    ((ids.map t.rank).find? (t.pruned.needsMore g)).map (t.pruned.place g) =
      (ids.find? (t.needsMore g)).map (t.place g) := by
  induction ids with
  | nil => rfl
  | cons id ids ih =>
    obtain ⟨hs, hid⟩ := h id List.mem_cons_self
    rw [List.map_cons, List.find?_cons, List.find?_cons, needsMore_pruned hs hid]
    split
    · rw [Option.map_some, Option.map_some, place_pruned hs hid]
    · exact ih fun j hj => h j (List.mem_cons_of_mem _ hj)

namespace Commented

variable (h : t.Commented g rule active)

include h

/-- The seat stands, and what stands around an instance up to its seat are comments. -/
theorem chain_eq (hid : id < t.size) : t.stands (t.seat id) = true ∧ t.seat id < t.size ∧
    ∃ notes, t.chain id = notes ++ t.chain (t.seat id) ∧ ∀ j ∈ notes, t.stands j = false := by
  have ho := h.arranged.ordered
  obtain ⟨n, hn, hparent⟩ := h.arranged.root
  have hroot : t.stands 0 = true := stands_of_root (by rw [parent?_eq hn, hparent])
  obtain ⟨seat, hseat⟩ : ∃ seat, (t.chain id).find? t.stands = some seat := by
    refine Option.isSome_iff_exists.mp (List.find?_isSome.mpr ⟨0, h.arranged.zero_mem_chain hid, hroot⟩)
  have heq : t.seat id = seat := by rw [Tree.seat, hseat]; rfl
  obtain ⟨hs, notes, rest, hchain, hnotes⟩ := List.find?_eq_some_iff_append.mp hseat
  have hle := ho.le_of_mem_chain (List.mem_of_find?_eq_some hseat)
  rw [heq, ho.chain_of_append hchain]
  exact ⟨hs, hle.trans_lt hid, notes, hchain, fun j hj => by simpa using hnotes j hj⟩

theorem note (hn : t.node? id = some n) (hs : t.stands id = false) : n.Legal g ∧ n.rule = rule ∧ n.entries ≠ [] := by
  have hrule : n.rule = rule := by
    by_contra hne
    rw [(h.stands_iff id n hn).mpr hne] at hs
    cases hs
  have hpos : 0 < id := by
    by_contra hzero
    obtain rfl : id = 0 := by omega
    obtain ⟨m, hm, hparent⟩ := h.arranged.root
    rw [stands_of_root (by rw [parent?_eq hm, hparent])] at hs
    cases hs
  exact ⟨h.conforms.legal id n hn, hrule, h.arranged.filled id n hn hpos⟩

theorem refused (hg : g.Comments rule x start) (hs : t.stands id = false) (hin : t.inText id = false) (p : Phrase) :
    (t.offer g p id).found? = none := by
  unfold offer
  cases hn : t.node? id with
  | none => rfl
  | some n =>
    obtain ⟨hl, hrule, hfilled⟩ := h.note hn hs
    exact hg.refused_note hl hrule hfilled (by simpa [inText, hn] using hin) p

theorem needsMore (hg : g.Comments rule x start) (hs : t.stands id = false) : t.needsMore g id = false := by
  unfold Tree.needsMore
  cases hn : t.node? id with
  | none => rfl
  | some n =>
    obtain ⟨hl, hrule, hfilled⟩ := h.note hn hs
    exact hg.needsMore_note hl hrule hfilled

theorem chain_stands (hs : t.stands id = true) (hid : id < t.size) : ∀ j ∈ t.chain id, t.stands j = true ∧ j < t.size :=
  fun _ hj => ⟨h.arranged.ordered.stands_of_mem_chain hs hj, (h.arranged.ordered.le_of_mem_chain hj).trans_lt hid⟩

/-- The innermost instance that needs more is no comment. -/
theorem unfinished_eq (hg : g.Comments rule x start) :
    ((t.pruned.chain (t.rank (t.seat active))).find? (t.pruned.needsMore g)).map (t.pruned.place g) =
      ((t.chain active).find? (t.needsMore g)).map (t.place g) := by
  obtain ⟨hs, hlt, notes, hchain, hnotes⟩ := h.chain_eq h.arranged.active_lt
  have hnone : notes.find? (t.needsMore g) = none :=
    List.find?_eq_none.mpr fun j hj => by simp [h.needsMore hg (hnotes j hj)]
  rw [chain_pruned h.arranged.ordered hs hlt, unfinished_pruned (h.chain_stands hs hlt), hchain, List.find?_append,
    hnone, Option.none_or]

/-- **The instances around the active one answer** as those around its seat do in the pruned tree, unless the active one
is an open comment. -/
theorem offerInOrder_eq (hg : g.Comments rule x start) (hout : t.stands active = false → t.inText active = false)
    (p : Phrase) :
    (t.pruned.offerInOrder g p (t.pruned.chain (t.rank (t.seat active)))).taken? =
        (t.offerInOrder g p (t.chain active)).taken?.map (Prod.map t.rank (Change.renumbered t.rank)) ∧
      ((t.pruned.offerInOrder g p (t.pruned.chain (t.rank (t.seat active)))).refused.find?
          (t.pruned.needsMore g)).map (t.pruned.place g) =
        ((t.offerInOrder g p (t.chain active)).refused.find? (t.needsMore g)).map (t.place g) ∧
      ∀ id c, (t.offerInOrder g p (t.chain active)).taken? = some (id, c) → t.stands id = true := by
  obtain ⟨hs, hlt, notes, hchain, hnotes⟩ := h.chain_eq h.arranged.active_lt
  have hclosed : ∀ j ∈ notes, t.inText j = false := by
    intro j hj
    by_contra hin
    have hjin : t.inText j = true := by simpa using hin
    obtain ⟨n, hn, hnin⟩ := inText_eq_true.mp hjin
    obtain rfl := h.openOnly j n hn hnin
    rw [hout (hnotes j hj)] at hjin
    cases hjin
  have hrefused : ∀ j ∈ notes, (t.offer g p j).found? = none := fun j hj => h.refused hg (hnotes j hj) (hclosed j hj) p
  have hnone : notes.find? (t.needsMore g) = none :=
    List.find?_eq_none.mpr fun j hj => by simp [h.needsMore hg (hnotes j hj)]
  obtain ⟨htaken, hleft⟩ := offerInOrder_append (t.chain (t.seat active)) hrefused
  have hstands := h.chain_stands hs hlt
  rw [chain_pruned h.arranged.ordered hs hlt, offerInOrder_pruned hstands, hchain, htaken, hleft]
  refine ⟨rfl, ?_, fun id c hc => ?_⟩
  · rw [List.find?_append, hnone, Option.none_or]
    exact unfinished_pruned fun j hj => hstands j (mem_of_mem_refused hj)
  · exact (hstands id (offerInOrder_spec hc).1).1

/-- **Where no text is open, nothing takes a beginning of `start`.** -/
theorem refused_head (hg : g.Comments rule x start) (hin : t.inText active = false) (hkind : p.kind = .chars)
    (hp : Heads p.text start) (id : NodeId) : (t.offer g p id).found? = none := by
  have hclosed : ∀ n, t.node? id = some n → n.inText = false := by
    intro n hn
    by_contra hopen
    have hopen : n.inText = true := by simpa using hopen
    obtain rfl := h.openOnly id n hn hopen
    simp [inText, hn, hopen] at hin
  cases hn : t.node? id with
  | none => simp [offer, hn, Search.fail]
  | some n =>
    cases hs : t.stands id with
    | true =>
      rw [offer, hn]
      exact hg.refused hkind hp ((h.stands_iff id n hn).mp hs) (hclosed n hn)
    | false => exact h.refused hg hs (by simp [inText, hn, hclosed n hn]) p

end Commented

/-! ### The comment that is being read -/

/-- What the comment `id` has taken, if `id` is one that is open. -/
def note? (t : Tree) (id : NodeId) : Option String :=
  if t.stands id then none else ((t.last? id).filter Entry.inText).map fun e => e.values.headD ""

theorem note?_of_stands (hs : t.stands id = true) : t.note? id = none := by rw [note?, if_pos hs]

theorem note?_of_last? {e : Entry} (hs : t.stands id = false) (hlast : t.last? id = some e) :
    t.note? id = if e.inText then some (e.values.headD "") else none := by
  rw [note?, hs, hlast, Option.filter_some]
  cases e.inText <;> rfl

theorem note?_isSome : (t.note? id).isSome = (!t.stands id && t.inText id) := by
  have hin : t.inText id = (t.last? id).any Entry.inText := by
    unfold inText last? Node.inText
    cases t.node? id <;> rfl
  rw [hin]
  cases hs : t.stands id with
  | true => rw [note?_of_stands hs]; rfl
  | false =>
    cases hlast : t.last? id with
    | none => simp [note?, hs, hlast]
    | some e =>
      rw [note?_of_last? hs hlast]
      cases he : e.inText <;> simp [he]

namespace Commented

variable {v : String} (h : t.Commented g rule active)

include h

/-- A text is open where one is in the pruned tree, or a comment is being read. -/
theorem inText_eq : t.inText active = (t.pruned.inText (t.rank (t.seat active)) || (t.note? active).isSome) := by
  obtain ⟨hs, hlt, -⟩ := h.chain_eq h.arranged.active_lt
  rw [inText_pruned hs hlt, note?_isSome]
  cases hactive : t.stands active with
  | true => simp [seat_of_stands hactive]
  | false =>
    have hclosed : t.inText (t.seat active) = false := by
      by_contra hin
      obtain ⟨n, hn, hnin⟩ := inText_eq_true.mp (by simpa using hin)
      rw [h.openOnly _ n hn hnin, hactive] at hs
      cases hs
    simp [hclosed]

theorem seat_graft {other : Nat} (hgraft : t.Graft other n n' depth t' taker)
    (hsame : ∀ j < t.size, t'.rank j = t.rank j ∧ t'.stands j = t.stands j) :
    t'.rank (t'.seat active) = t.rank (t.seat active) := by
  have ho := h.arranged.ordered
  have hlt := h.arranged.active_lt
  have hseat : t'.seat active = t.seat active :=
    seat_congr (hgraft.chain_old ho hlt) fun j hj => (hsame j ((ho.le_of_mem_chain hj).trans_lt hlt)).2
  obtain ⟨-, hseatlt, -⟩ := h.chain_eq hlt
  rw [hseat, (hsame _ hseatlt).1]

/-- **A phrase in a comment goes into the comment**, which is closed where its closing phrase stands at the end. -/
theorem apply_note (hg : g.Comments rule x start) (hnote : t.note? active = some v) (p : Phrase) :
    ∃ e, (t.offer g p active).found? = some (.replace e) ∧ (t.apply active (.replace e)).1.pruned = t.pruned ∧
      (t.apply active (.replace e)).1.rank ((t.apply active (.replace e)).1.seat active) = t.rank (t.seat active) ∧
      (t.apply active (.replace e)).1.note? active =
        (if x.closes start.toList.length (v ++ p.text) then none else some (v ++ p.text)) ∧
      (t.apply active (.replace e)).1.toReread? active = none := by
  obtain ⟨n, hn⟩ := node?_of_lt h.arranged.active_lt
  obtain ⟨hs, hin⟩ : t.stands active = false ∧ n.inText = true := by
    have hopen : (!t.stands active && t.inText active) = true := by rw [← note?_isSome, hnote]; rfl
    simpa [inText, hn] using hopen
  obtain ⟨hl, hrule, hfilled⟩ := h.note hn hs
  obtain ⟨c, c', hlast, hown, hvalue, hback, hcloses⟩ := hg.taken_note hl hrule hfilled hin p
  have hlast' : t.last? active = some (.capture c) := by rwa [last?, hn]
  have hopen : (Entry.capture c).inText = true := by rwa [Node.inText, hlast] at hin
  have hv : c.value = v := by
    rw [note?_of_last? hs hlast', hopen] at hnote
    exact Option.some.inj hnote
  have hown : (t.offer g p active).found? = some (.replace (.capture c')) := by rwa [offer, hn]
  obtain ⟨m, hm, ha⟩ := offer_answers hown
  cases hn.symm.trans hm
  have hgraft := graft_apply hn ha
  obtain ⟨hpruned, hsame⟩ := pruned_replace h.arranged hn ha hs
  have hafter := last?_apply_replace hn (.capture c')
  refine ⟨_, hown, hpruned, h.seat_graft hgraft hsame, ?_, ?_⟩
  · rw [note?_of_last? ((hsame _ hgraft.id_lt).2.trans hs) hafter, ← hv, ← hvalue]
    show (if c'.inText then some c'.value else none) = _
    rw [hcloses, hvalue]
    cases x.closes start.toList.length (c.value ++ p.text) <;> rfl
  · show ((t.apply active (.replace (.capture c'))).1.last? active).bind Entry.toReread? = none
    rw [hafter]
    show c'.handBack?.map _ = none
    rw [hback]
    rfl

/-- **A comment that begins** stands below the active instance, and holds the phrase that opens it. -/
theorem adopt_start (hg : g.Comments rule x start) (htext : p.text = start) :
    ∃ growth, (offerGlobal g p).found? = some (rule, growth) ∧
      (t.adopt g active rule growth).1.pruned = t.pruned ∧
      (t.adopt g active rule growth).1.rank ((t.adopt g active rule growth).1.seat (t.adopt g active rule growth).2) =
        t.rank (t.seat active) ∧
      (t.adopt g active rule growth).1.note? (t.adopt g active rule growth).2 = some start := by
  obtain ⟨n, hn⟩ := node?_of_lt h.arranged.active_lt
  obtain ⟨c, hbegin, hopen, hvalue⟩ : ∃ c, x.begin? 0 p = some c ∧ c.inText = true ∧ c.value = start :=
    ⟨_, hg.begin?_of_eq htext, rfl, htext⟩
  have hfound := hg.offerGlobal p
  rw [hbegin, Option.map_some] at hfound
  obtain ⟨y, hgraft⟩ := graft_adopt g hn rule (.capture c)
  obtain ⟨hpruned, hsame, hnew⟩ := pruned_adopt h.arranged hn g rule (.capture c)
  have htaker : (t.adopt g active rule (.capture c)).2 = t.size := hgraft.taker
  have hparent : (t.adopt g active rule (.capture c)).1.parent? t.size = some active :=
    hgraft.parent?_new (k := 0) (Nat.succ_pos _)
  have hs : (t.adopt g active rule (.capture c)).1.stands t.size = false := hnew 0 (Nat.zero_le _)
  have hlast : (t.adopt g active rule (.capture c)).1.last? t.size = some (.capture c) := by
    have hnode : (t.adopt g active rule (.capture c)).1.node? (t.size + 0) =
        some ⟨rule, some active, [.capture c], []⟩ := node?_extend_add ..
    rw [Nat.add_zero] at hnode
    rw [last?, hnode]
    rfl
  refine ⟨_, hfound, hpruned, ?_, ?_⟩
  · rw [htaker, (hgraft.ordered h.arranged.ordered).seat_of_parent hs hparent]
    exact h.seat_graft hgraft hsame
  · rw [htaker, note?_of_last? hs hlast]
    show (if c.inText then some c.value else none) = _
    rw [hopen, hvalue]
    rfl

end Commented

end Tree

end PhraseTree
