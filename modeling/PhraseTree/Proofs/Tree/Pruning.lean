import PhraseTree.Proofs.Tree.Arrangement
import PhraseTree.Proofs.Tree.Shift

/-!
# Trees without their global subtrees

A global subtree is an instance that a global rule made, with all that hangs below it.  The instances outside of global
subtrees *stand*.  `Tree.pruned t` keeps those alone, in their order, and numbers them anew.

* `Tree.stands t id` — `id` is in no global subtree; `Tree.rank t id` is its number among those that stand;
* `Tree.node?_pruned`, `Tree.chain_pruned`: the instances that stand, and those around them, are found in the pruned
  tree under their new numbers;
* `Tree.offer_pruned`, `Tree.offerInOrder_pruned`: there they answer a phrase alike;
* `Tree.pruned_apply`, `Tree.pruned_settle`: what they do with a phrase they do in the pruned tree;
* `Tree.Graft.pruned_eq`, `Tree.pruned_adopt`: what happens in a global subtree cannot be seen in the pruned tree.
-/

namespace PhraseTree

/-! ### Other numbers -/

/-- The entry with its child numbered by `f`. -/
def Entry.renumbered (f : NodeId → NodeId) : Entry → Entry
  | .child x => .child { x with node := f x.node, deepest := f x.deepest }
  | e => e

/-- The change with children numbered by `f`.  The new instances of a growth have no numbers yet. -/
def Change.renumbered (f : NodeId → NodeId) : Change → Change
  | .replace e => .replace (e.renumbered f)
  | .grow growth => .grow growth

/-- The instance with all others numbered by `f`, and without those of global rules. -/
def Node.trimmed (f : NodeId → NodeId) (n : Node) : Node :=
  ⟨n.rule, n.parent?.map f, n.entries.map (Entry.renumbered f), []⟩

/-- The climb with all instances numbered by `f`. -/
def Climb.renumbered (f : NodeId → NodeId) (k : Climb) : Climb :=
  ⟨k.dropped, k.refused.map f, k.taken?.map (Prod.map f (Change.renumbered f))⟩

section Renumbering

variable {f f' : NodeId → NodeId} {e : Entry} {n : Node} {g : Grammar} {p : Phrase}

namespace Entry

@[simp] theorem part_renumbered : (e.renumbered f).part = e.part := by cases e <;> rfl

@[simp] theorem finished_renumbered : (e.renumbered f).finished = e.finished := by cases e <;> rfl

@[simp] theorem inText_renumbered : (e.renumbered f).inText = e.inText := by cases e <;> rfl

@[simp] theorem blocks_renumbered : (e.renumbered f).blocks = e.blocks := by cases e <;> rfl

@[simp] theorem toReread?_renumbered : (e.renumbered f).toReread? = e.toReread? := by cases e <;> rfl

theorem settled_renumbered : (e.renumbered f).settled = e.settled.renumbered f := by cases e <;> rfl

@[simp] theorem captures_renumbered : (e.renumbered f).captures = e.captures := by cases e <;> rfl

/-- Only the numbers of the child matter. -/
theorem renumbered_congr (h : ∀ l ∈ e.link?, f l.1 = f' l.1 ∧ f l.2 = f' l.2) : e.renumbered f = e.renumbered f' := by
  cases e with
  | capture | fork => rfl
  | child x =>
    obtain ⟨hnode, hdeepest⟩ := h (x.node, x.deepest) rfl
    simp only [renumbered, hnode, hdeepest]

end Entry

theorem RuleChoice.resume_renumbered (inside : RuleId → Search Growth) (c : RuleChoice RuleId) (x : Child) :
    c.resume inside p { x with node := f x.node, deepest := f x.deepest } =
      (c.resume inside p x).map (Change.renumbered f) := by
  unfold resume
  dsimp only
  split
  · rfl
  · split
    · rw [Search.map_map]
      rfl
    · rfl

theorem Part.resume_renumbered (inside : RuleId → Search Growth) (part : Part RuleId) (e : Entry) :
    part.resume inside p (e.renumbered f) = (part.resume inside p e).map (Change.renumbered f) := by
  cases e with
  | child x =>
    cases part with
    | choice c => exact c.resume_renumbered inside x
    | simple | alternatives => rfl
  | capture c =>
    cases part with
    | simple part =>
      show Search.ofOption _ = (Search.ofOption _).map _
      simp only [Search.ofOption, Search.map, Option.map_map]
      rfl
    | choice | alternatives => rfl
  | fork x =>
    cases part with
    | alternatives a =>
      show Search.ofOption _ = (Search.ofOption _).map _
      simp only [Search.ofOption, Search.map, Option.map_map]
      rfl
    | choice | simple => rfl

namespace Node

theorem last?_trimmed : (n.trimmed f).last? = n.last?.map (Entry.renumbered f) := List.head?_map

theorem advance_trimmed (i : Nat) :
    (n.trimmed f).advance g p i = (n.advance g p i).map (Change.renumbered f) := by
  unfold advance
  rw [Search.map_map]
  rfl

/-- **An instance answers alike**, however the others are numbered. -/
theorem offer_trimmed : (n.trimmed f).offer g p = (n.offer g p).map (Change.renumbered f) := by
  unfold offer
  rw [last?_trimmed]
  cases n.last? with
  | none => exact advance_trimmed 0
  | some e =>
    have hrule : (n.trimmed f).rule = n.rule := rfl
    dsimp only [Option.map_some]
    rw [Entry.finished_renumbered, Entry.part_renumbered, Entry.blocks_renumbered, hrule]
    split
    · exact advance_trimmed _
    · split
      · rfl
      · rw [Search.map_orElse, Part.resume_renumbered]
        split
        · rfl
        · rw [advance_trimmed]

@[simp] theorem inText_trimmed : (n.trimmed f).inText = n.inText := by
  unfold inText
  rw [last?_trimmed, Option.any_map]
  exact congrArg (n.last?.any ·) (funext fun e => Entry.inText_renumbered)

theorem needsMore_trimmed : (n.trimmed f).needsMore g = n.needsMore g := by
  unfold needsMore nextPart
  rw [last?_trimmed]
  cases n.last? with
  | none => rfl
  | some e => cases e <;> rfl

theorem place_trimmed : (n.trimmed f).place g = n.place g := by
  unfold place
  rw [last?_trimmed, Option.map_map]
  have hpart : Entry.part ∘ Entry.renumbered f = Entry.part := funext fun e => Entry.part_renumbered
  rw [hpart]
  rfl

theorem trimmed_congr (hparent : ∀ q ∈ n.parent?, f q = f' q)
    (hlinks : ∀ e ∈ n.entries, ∀ l ∈ e.link?, f l.1 = f' l.1 ∧ f l.2 = f' l.2) : n.trimmed f = n.trimmed f' := by
  unfold trimmed
  rw [List.map_congr_left fun e he => Entry.renumbered_congr (hlinks e he), Option.map_congr hparent]

theorem trimmed_replaceLast : (n.replaceLast e).trimmed f = (n.trimmed f).replaceLast (e.renumbered f) := by
  simp only [trimmed, replaceLast, List.map_cons, List.map_tail]

theorem trimmed_settled : ({ n with entries := n.entries.modifyHead Entry.settled } : Node).trimmed f =
    { n.trimmed f with entries := (n.trimmed f).entries.modifyHead Entry.settled } := by
  unfold trimmed
  rcases n.entries with _ | ⟨e, rest⟩
  · rfl
  · simp only [List.modifyHead_cons, List.map_cons, Entry.settled_renumbered]

end Node

/-- New instances that are numbered one after the other are so under other numbers. -/
theorem Growth.entry_renumbered {growth : Growth} {base base' : Nat}
    (h : ∀ k < growth.depth, f (base + k) = base' + k) : (growth.entry base).renumbered f = growth.entry base' := by
  cases growth with
  | capture | fork => rfl
  | child slot rule growth =>
    have hfirst := h 0 (Nat.succ_pos _)
    have hlast := h growth.depth (Nat.lt_succ_self _)
    simp only [Nat.add_zero] at hfirst
    simp only [Growth.entry, Entry.renumbered, hfirst, hlast]

theorem Growth.nodes_renumbered {growth : Growth} {base base' : Nat} (parent : NodeId)
    (h : ∀ k < growth.depth, f (base + k) = base' + k) :
    (growth.nodes parent base).map (Node.trimmed f) = growth.nodes (f parent) base' := by
  induction growth generalizing parent base base' with
  | capture | fork => rfl
  | child slot rule growth ih =>
    have hrest : ∀ k < growth.depth, f (base + 1 + k) = base' + 1 + k := by
      intro k hk
      have hnext := h (k + 1) (Nat.succ_lt_succ hk)
      rwa [show base + 1 + k = base + (k + 1) by omega, show base' + 1 + k = base' + (k + 1) by omega]
    have hfirst : f base = base' := h 0 (Nat.succ_pos _)
    simp only [Growth.nodes, List.map_cons, ih base hrest, hfirst]
    simp only [Node.trimmed, Option.map_some, List.map_cons, List.map_nil, Growth.entry_renumbered hrest]

end Renumbering

/-! ### The instances that stand -/

/-- A list of which every element is found keeps its places. -/
theorem getElem?_filterMap_of_isSome {α β : Type} {look : α → Option β} {l : List α}
    (h : ∀ x ∈ l, (look x).isSome = true) (k : Nat) : (l.filterMap look)[k]? = (l[k]?).bind look := by
  induction l generalizing k with
  | nil => rfl
  | cons x l ih =>
    obtain ⟨y, hy⟩ := Option.isSome_iff_exists.mp (h x List.mem_cons_self)
    rw [List.filterMap_cons_some hy]
    cases k with
    | zero => simp [hy]
    | succ k => exact ih (fun z hz => h z (List.mem_cons_of_mem _ hz)) k

namespace Tree

/-- A global rule made the instance. -/
def isGlobal (t : Tree) (id : NodeId) : Bool :=
  (t.parent? id).any fun parent => (t.node? parent).any fun n => n.globals.any (·.node == id)

/-- The instance is in no global subtree. -/
def stands (t : Tree) (id : NodeId) : Bool := (t.chain id).all fun i => !t.isGlobal i

/-- How many of the instances made before stand. -/
def rank (t : Tree) (id : NodeId) : Nat := (List.range id).countP t.stands

/-- The instances that stand, in the order in which they were made. -/
def standing (t : Tree) : List NodeId := (List.range t.size).filter t.stands

/-- **The tree without its global subtrees.** -/
def pruned (t : Tree) : Tree :=
  ⟨(t.standing.filterMap fun id => (t.node? id).map (Node.trimmed t.rank)).toArray⟩

variable {t t' : Tree} {id active taker depth i j k q : Nat} {n n' m : Node} {g : Grammar} {p : Phrase} {c : Change}

theorem stands_eq_true : t.stands id = true ↔ ∀ i ∈ t.chain id, t.isGlobal i = false := by
  simp [stands]

/-- What stands around an instance that stands does so, too. -/
theorem Ordered.stands_of_mem_chain (h : t.Ordered) (hs : t.stands id = true) (hj : j ∈ t.chain id) :
    t.stands j = true := stands_eq_true.mpr fun i hi => stands_eq_true.mp hs i (h.chain_subset hj i hi)

theorem Ordered.stands_of_parent (h : t.Ordered) (hs : t.stands id = true) (hq : t.parent? id = some q) :
    t.stands q = true :=
  h.stands_of_mem_chain hs (h.mem_chain_iff.mpr (Or.inr ⟨q, hq, t.mem_chain_self q⟩))

theorem stands_of_root (h : t.parent? id = none) : t.stands id = true := by
  simp [stands, Ordered.chain_of_none h, isGlobal, h]

/-! #### Their numbers -/

theorem rank_succ (t : Tree) (id : NodeId) : t.rank (id + 1) = t.rank id + if t.stands id then 1 else 0 := by
  simp only [rank, List.range_succ, List.countP_append, List.countP_singleton]

theorem rank_mono (t : Tree) (h : i ≤ j) : t.rank i ≤ t.rank j :=
  (List.range_sublist.mpr h).countP_le

theorem rank_lt (hs : t.stands i = true) (h : i < j) : t.rank i < t.rank j := by
  have hnext := t.rank_succ i
  rw [if_pos hs] at hnext
  exact Nat.lt_of_lt_of_le (hnext ▸ Nat.lt_succ_self _) (t.rank_mono (Nat.succ_le_of_lt h))

theorem rank_inj (hi : t.stands i = true) (hj : t.stands j = true) (h : t.rank i = t.rank j) : i = j := by
  rcases Nat.lt_trichotomy i j with hlt | rfl | hlt
  · have := rank_lt hi hlt
    omega
  · rfl
  · have := rank_lt hj hlt
    omega

theorem length_standing (t : Tree) : t.standing.length = t.rank t.size := List.countP_eq_length_filter.symm

theorem standing_rank (hid : id < t.size) (hs : t.stands id = true) : t.standing[t.rank id]? = some id := by
  obtain ⟨k, hk⟩ := Nat.exists_eq_add_of_lt hid
  have hrange : List.range t.size = List.range id ++ id :: (List.range k).map (id + 1 + ·) := by
    rw [hk, Nat.add_assoc, List.range_add, List.range_succ_eq_map]
    simp [Function.comp_def, Nat.add_comm, Nat.add_left_comm]
  have hlength : t.rank id = ((List.range id).filter t.stands).length := List.countP_eq_length_filter
  rw [standing, hrange, List.filter_append, List.filter_cons_of_pos hs, hlength,
    List.getElem?_append_right le_rfl, Nat.sub_self]
  rfl

theorem mem_standing (h : t.standing[k]? = some id) : id < t.size ∧ t.stands id = true ∧ t.rank id = k := by
  obtain ⟨hmem, hs⟩ := List.mem_filter.mp (List.mem_of_getElem? h)
  have hid := List.mem_range.mp hmem
  refine ⟨hid, hs, ?_⟩
  have hlt := (List.getElem?_eq_some_iff.mp (standing_rank hid hs)).1
  have hnodup : t.standing.Nodup := List.nodup_range.filter _
  exact (List.getElem?_inj hlt hnodup).mp ((standing_rank hid hs).trans h.symm)

/-! #### Finding them in the pruned tree -/

theorem node?_pruned_eq (t : Tree) (k : NodeId) :
    t.pruned.node? k = (t.standing[k]?).bind fun id => (t.node? id).map (Node.trimmed t.rank) := by
  have hall : ∀ id ∈ t.standing, ((t.node? id).map (Node.trimmed t.rank)).isSome = true := by
    intro id hid
    obtain ⟨n, hn⟩ := node?_of_lt (List.mem_range.mp (List.mem_filter.mp hid).1)
    simp [hn]
  unfold pruned
  rw [node?, List.getElem?_toArray]
  exact getElem?_filterMap_of_isSome hall k

theorem node?_pruned (hn : t.node? id = some n) (hs : t.stands id = true) :
    t.pruned.node? (t.rank id) = some (n.trimmed t.rank) := by
  rw [node?_pruned_eq, standing_rank (lt_size_of_node? hn) hs, Option.bind_some, hn, Option.map_some]

theorem of_node?_pruned (h : t.pruned.node? k = some m) :
    ∃ id n, t.node? id = some n ∧ t.stands id = true ∧ t.rank id = k ∧ m = n.trimmed t.rank := by
  rw [node?_pruned_eq, Option.bind_eq_some_iff] at h
  obtain ⟨id, hid, hm⟩ := h
  obtain ⟨n, hn, rfl⟩ := Option.map_eq_some_iff.mp hm
  obtain ⟨-, hs, hrank⟩ := mem_standing hid
  exact ⟨id, n, hn, hs, hrank, rfl⟩

theorem size_pruned (t : Tree) : t.pruned.size = t.rank t.size := by
  rw [← length_standing]
  have hsize : ∀ k, k < t.pruned.size ↔ k < t.standing.length := by
    intro k
    constructor
    · intro hk
      obtain ⟨m, hm⟩ := node?_of_lt hk
      rw [node?_pruned_eq, Option.bind_eq_some_iff] at hm
      obtain ⟨id, hid, -⟩ := hm
      exact (List.getElem?_eq_some_iff.mp hid).1
    · intro hk
      have hid := List.getElem?_eq_getElem hk
      obtain ⟨hlt, hs, hrank⟩ := mem_standing hid
      obtain ⟨n, hn⟩ := node?_of_lt hlt
      rw [← hrank]
      exact lt_size_of_node? (node?_pruned hn hs)
  have hle := (hsize t.pruned.size).not.mp (lt_irrefl _)
  have hge := (hsize t.standing.length).not.mpr (lt_irrefl _)
  omega

/-- A tree is the pruned one if it holds the instances that stand, and no others. -/
theorem pruned_eq {t₀ : Tree} (hsize : t₀.size = t.rank t.size)
    (hnode : ∀ id n, t.node? id = some n → t.stands id = true → t₀.node? (t.rank id) = some (n.trimmed t.rank)) :
    t.pruned = t₀ := by
  have hnodes : ∀ k, t.pruned.node? k = t₀.node? k := by
    intro k
    cases hk : t.pruned.node? k with
    | some m =>
      obtain ⟨id, n, hn, hs, rfl, rfl⟩ := of_node?_pruned hk
      exact (hnode id n hn hs).symm
    | none =>
      have hle : t.pruned.size ≤ k := Array.getElem?_eq_none_iff.mp hk
      rw [size_pruned, ← hsize] at hle
      exact (Array.getElem?_eq_none_iff.mpr hle).symm
  obtain ⟨nodes⟩ := t₀
  exact congrArg Tree.mk (Array.ext_getElem? fun k => hnodes k)

theorem parent?_pruned (hs : t.stands id = true) (hid : id < t.size) :
    t.pruned.parent? (t.rank id) = (t.parent? id).map t.rank := by
  obtain ⟨n, hn⟩ := node?_of_lt hid
  rw [parent?_eq (node?_pruned hn hs), parent?_eq hn]
  rfl

theorem Ordered.pruned (h : t.Ordered) : t.pruned.Ordered := by
  intro k q hq
  obtain ⟨m, hm, -⟩ := node?_of_parent? hq
  obtain ⟨id, n, hn, hs, rfl, rfl⟩ := of_node?_pruned hm
  rw [parent?_pruned hs (lt_size_of_node? hn)] at hq
  obtain ⟨q, hp, rfl⟩ := Option.map_eq_some_iff.mp hq
  exact rank_lt (h.stands_of_parent hs hp) (h id q hp)

/-- **The instances around one that stands** are the same in the pruned tree. -/
theorem chain_pruned (h : t.Ordered) (hs : t.stands id = true) (hid : id < t.size) :
    t.pruned.chain (t.rank id) = (t.chain id).map t.rank := by
  induction id using Nat.strongRecOn with
  | ind id ih =>
    have hparent := parent?_pruned hs hid
    cases hp : t.parent? id with
    | none =>
      rw [hp] at hparent
      rw [Ordered.chain_of_none hparent, Ordered.chain_of_none hp]
      rfl
    | some q =>
      have hlt := h id q hp
      rw [hp] at hparent
      rw [h.pruned.chain_of_parent hparent, h.chain_of_parent hp, List.map_cons,
        ih q hlt (h.stands_of_parent hs hp) (hlt.trans hid)]

theorem inText_pruned (hs : t.stands id = true) (hid : id < t.size) : t.pruned.inText (t.rank id) = t.inText id := by
  obtain ⟨n, hn⟩ := node?_of_lt hid
  simp [inText, hn, node?_pruned hn hs]

theorem needsMore_pruned (hs : t.stands id = true) (hid : id < t.size) :
    t.pruned.needsMore g (t.rank id) = t.needsMore g id := by
  obtain ⟨n, hn⟩ := node?_of_lt hid
  simp [needsMore, hn, node?_pruned hn hs, Node.needsMore_trimmed]

theorem place_pruned (hs : t.stands id = true) (hid : id < t.size) :
    t.pruned.place g (t.rank id) = t.place g id := by
  obtain ⟨n, hn⟩ := node?_of_lt hid
  simp only [place, hn, node?_pruned hn hs, Node.place_trimmed]

theorem toReread?_pruned (hs : t.stands id = true) (hid : id < t.size) :
    t.pruned.toReread? (t.rank id) = t.toReread? id := by
  obtain ⟨n, hn⟩ := node?_of_lt hid
  simp only [toReread?, hn, node?_pruned hn hs, Option.bind_some, Node.last?_trimmed]
  cases n.last? with
  | none => rfl
  | some e => exact Entry.toReread?_renumbered

/-- What the pruned tree holds is in the tree. -/
theorem Records.of_pruned {x : Capture} (h : t.pruned.Records k x) : ∃ id, t.Records id x := by
  obtain ⟨m, e, hm, he, hx⟩ := h
  obtain ⟨id, n, hn, -, -, rfl⟩ := of_node?_pruned hm
  obtain ⟨e, hmem, rfl⟩ := List.mem_map.mp he
  exact ⟨id, n, e, hn, hmem, by rwa [Entry.captures_renumbered] at hx⟩

/-! #### Their answers -/

/-- **An instance that stands answers alike** in the pruned tree. -/
theorem offer_pruned (hs : t.stands id = true) (hid : id < t.size) :
    t.pruned.offer g p (t.rank id) = (t.offer g p id).map (Change.renumbered t.rank) := by
  obtain ⟨n, hn⟩ := node?_of_lt hid
  simp only [offer, hn, node?_pruned hn hs, Node.offer_trimmed]

theorem offerInOrder_pruned {ids : List NodeId} (h : ∀ id ∈ ids, t.stands id = true ∧ id < t.size) :
    t.pruned.offerInOrder g p (ids.map t.rank) = (t.offerInOrder g p ids).renumbered t.rank := by
  induction ids with
  | nil => rfl
  | cons id rest ih =>
    obtain ⟨hs, hid⟩ := h id List.mem_cons_self
    have hrest := ih fun j hj => h j (List.mem_cons_of_mem _ hj)
    simp only [List.map_cons, offerInOrder, offer_pruned hs hid, Search.found?_map, Search.dropped_map, hrest]
    cases (t.offer g p id).found? <;> rfl

/-! ### Changes outside of global subtrees, and inside -/

/-- Children were made before. -/
theorem Arranged.link_lt (ha : t.Arranged active) (hn : t.node? id = some n) {e : Entry} (he : e ∈ n.entries)
    {l : Nat × Nat} (hl : e.link? = some l) : l.1 < t.size ∧ l.2 < t.size := by
  obtain ⟨x, rfl, -⟩ := Entry.child_of_link? hl
  obtain rfl : l = (x.node, x.deepest) := (Option.some.inj hl).symm
  have hmem : x ∈ n.instances :=
    List.mem_append_left _ (List.mem_filterMap.mpr ⟨.child x, List.mem_reverse.mpr he, rfl⟩)
  obtain ⟨hdeepest, hchain⟩ := ha.deepest id n hn x hmem
  exact ⟨(ha.ordered.le_of_mem_chain hchain).trans_lt hdeepest, hdeepest⟩

/-- The instances of global rules were made before. -/
theorem Arranged.global_lt (ha : t.Arranged active) (hn : t.node? id = some n) {x : Child} (hx : x ∈ n.globals) :
    x.node < t.size := by
  obtain ⟨hdeepest, hchain⟩ := ha.deepest id n hn x (List.mem_append_right _ (List.mem_reverse.mpr hx))
  exact (ha.ordered.le_of_mem_chain hchain).trans_lt hdeepest

namespace Graft

variable (h : t.Graft id n n' depth t' taker) (ho : t.Ordered)
  (hglobals : ∀ j < t.size, n'.globals.any (·.node == j) = n.globals.any (·.node == j))

include h ho hglobals

theorem isGlobal_old (hj : j < t.size) : t'.isGlobal j = t.isGlobal j := by
  unfold isGlobal
  rw [h.keeps.parent?_eq hj]
  cases hq : t.parent? j with
  | none => rfl
  | some q =>
    have hlt := ho j q hq
    by_cases hqid : q = id
    · subst hqid
      simpa [h.before, h.after] using hglobals j hj
    · simp only [Option.any_some, h.others q (by omega) hqid]

/-- Of the instances that were there the same stand as before. -/
theorem stands_old (hj : j < t.size) : t'.stands j = t.stands j := by
  rw [Bool.eq_iff_iff, stands_eq_true, stands_eq_true, h.chain_old ho hj]
  refine forall₂_congr fun i hi => ?_
  have hle := ho.le_of_mem_chain hi
  rw [h.isGlobal_old ho hglobals (by omega)]

theorem rank_old (hj : j ≤ t.size) : t'.rank j = t.rank j := by
  refine List.countP_congr fun i hi => ?_
  have hlt := List.mem_range.mp hi
  rw [h.stands_old ho hglobals (by omega)]

/-- What was not changed looks alike. -/
theorem trimmed_old {active : NodeId} (ha : t.Arranged active) (hm : t.node? j = some m) :
    m.trimmed t'.rank = m.trimmed t.rank := by
  refine Node.trimmed_congr (fun q hq => ?_) fun e he l hl => ?_
  · have hlt := ho j q ((parent?_eq hm).trans hq)
    have hj : j < t.size := lt_size_of_node? hm
    exact h.rank_old ho hglobals (by omega)
  · obtain ⟨hnode, hdeepest⟩ := ha.link_lt hm he hl
    exact ⟨h.rank_old ho hglobals hnode.le, h.rank_old ho hglobals hdeepest.le⟩

/-- **A change that cannot be seen**: no new instance stands, and the one that was changed does not or looks alike. -/
theorem pruned_eq {active : NodeId} (ha : t.Arranged active) (hnew : ∀ k < depth, t'.stands (t.size + k) = false)
    (hsame : t.stands id = true → n'.trimmed t'.rank = n.trimmed t.rank) : t'.pruned = t.pruned := by
  have hrank : t'.rank t'.size = t.rank t.size := by
    have hall : ∀ k ≤ depth, t'.rank (t.size + k) = t.rank t.size := by
      intro k hk
      induction k with
      | zero => exact h.rank_old ho hglobals le_rfl
      | succ k ih =>
        rw [← Nat.add_assoc, rank_succ, ih (by omega), hnew k (by omega)]
        rfl
    rw [h.size]
    exact hall depth le_rfl
  refine Tree.pruned_eq ((size_pruned t).trans hrank.symm) fun j m hm hs => ?_
  rcases h.old_or_new (lt_size_of_node? hm) with hj | ⟨k, hk, rfl⟩
  · rw [h.stands_old ho hglobals hj] at hs
    rw [h.rank_old ho hglobals hj.le]
    by_cases hjid : j = id
    · subst hjid
      cases hm.symm.trans h.after
      rw [hsame hs]
      exact node?_pruned h.before hs
    · rw [h.others j hj hjid] at hm
      rw [h.trimmed_old ho hglobals ha hm]
      exact node?_pruned hm hs
  · rw [hnew k hk] at hs
    cases hs

/-- Where no global rule made them, the new instances stand if the one that was changed does. -/
theorem stands_new (hold : ∀ x ∈ n'.globals, x.node < t.size) (hk : k < depth) :
    t'.stands (t.size + k) = t.stands id := by
  have hnew : ∀ k < depth, t'.isGlobal (t.size + k) = false := by
    intro k hk
    unfold isGlobal
    rw [h.parent?_new hk]
    by_cases hzero : k = 0
    · subst hzero
      rw [if_pos rfl, Option.any_some, h.after, Option.any_some, Nat.add_zero]
      refine List.any_eq_false.mpr fun x hx => ?_
      simpa using (hold x hx).ne
    · obtain ⟨rule, e, hnode, -⟩ := h.line (k - 1) (by omega)
      simp [if_neg hzero, hnode]
  rw [Bool.eq_iff_iff, stands_eq_true, stands_eq_true]
  constructor
  · intro hall i hi
    have hle := ho.le_of_mem_chain hi
    have hlt := h.id_lt
    rw [← h.isGlobal_old ho hglobals (by omega)]
    exact hall i ((h.mem_chain_new ho hk).mpr (Or.inl hi))
  · intro hall i hi
    rcases (h.mem_chain_new ho hk).mp hi with hi | ⟨hle, hle'⟩
    · have hle := ho.le_of_mem_chain hi
      have hlt := h.id_lt
      rw [h.isGlobal_old ho hglobals (by omega)]
      exact hall i hi
    · obtain ⟨k', rfl⟩ := Nat.exists_eq_add_of_le hle
      exact hnew k' (by omega)

/-- New instances that stand have the next numbers. -/
theorem rank_new (hold : ∀ x ∈ n'.globals, x.node < t.size) (hs : t.stands id = true) (hk : k ≤ depth) :
    t'.rank (t.size + k) = t.rank t.size + k := by
  induction k with
  | zero => exact h.rank_old ho hglobals le_rfl
  | succ k ih =>
    rw [← Nat.add_assoc, rank_succ, ih (by omega), h.stands_new ho hglobals hold (by omega), if_pos hs]
    rfl

end Graft

/-- The instance that a global rule made is the first new one. -/
theorem Graft.node_adopted {x : Child} (h : t.Graft id n (n.pushGlobal x) (depth + 1) t' taker) : x.node = t.size := by
  have hperm := (n.links_pushGlobal x).symm.trans h.links
  have hline : lineLink? t.size (depth + 1) = some (t.size, t.size + depth) := lineLink?_eq_some.mpr ⟨by omega, rfl⟩
  rw [hline] at hperm
  have hsame := List.singleton_perm_singleton.mp ((List.perm_append_right_iff n.links).mp hperm)
  exact congrArg Prod.fst hsame

/-- Of the instances that were there no further one is of a global rule. -/
theorem Graft.globals_adopted {x : Child} (h : t.Graft id n (n.pushGlobal x) (depth + 1) t' taker) :
    ∀ j < t.size, (n.pushGlobal x).globals.any (·.node == j) = n.globals.any (·.node == j) := by
  intro j hj
  have hne : (x.node == j) = false := by
    rw [h.node_adopted]
    simpa using hj.ne'
  simp [Node.pushGlobal, hne]

/-- None of the instances that were made by a global rule stands. -/
theorem Graft.stands_adopted {x : Child} (h : t.Graft id n (n.pushGlobal x) (depth + 1) t' taker) (ho : t.Ordered)
    (hk : k < depth + 1) : t'.stands (t.size + k) = false := by
  have hfirst : t'.isGlobal t.size = true := by
    have hparent := h.parent?_new (k := 0) (by omega)
    rw [Nat.add_zero, if_pos rfl] at hparent
    simp [isGlobal, hparent, h.after, Node.pushGlobal, h.node_adopted]
  have hmem : t.size ∈ t'.chain (t.size + k) := (h.mem_chain_new ho hk).mpr (Or.inr ⟨le_rfl, by omega⟩)
  by_contra hs
  have hnot := stands_eq_true.mp (by simpa using hs) _ hmem
  rw [hfirst] at hnot
  cases hnot

/-! ### Taking a phrase -/

/-- **A change that can be seen**: `t₀` is the pruned tree after the same change. -/
theorem Graft.pruned_of_stands {t₀ : Tree} (h : t.Graft id n n' depth t' taker) (ha : t.Arranged active)
    (hglobals : n'.globals = n.globals) (hs : t.stands id = true) (hsize : t₀.size = t.pruned.size + depth)
    (hothers : ∀ k < t.pruned.size, k ≠ t.rank id → t₀.node? k = t.pruned.node? k)
    (hafter : t₀.node? (t.rank id) = some (n'.trimmed t'.rank))
    (hline : ∀ k < depth, ∀ m, t'.node? (t.size + k) = some m →
      t₀.node? (t.pruned.size + k) = some (m.trimmed t'.rank)) : t'.pruned = t₀ := by
  have hsame : ∀ j < t.size, n'.globals.any (·.node == j) = n.globals.any (·.node == j) := by
    intro j _
    rw [hglobals]
  have hold : ∀ x ∈ n'.globals, x.node < t.size := by
    rw [hglobals]
    exact fun x hx => ha.global_lt h.before hx
  have hnew : ∀ k ≤ depth, t'.rank (t.size + k) = t.pruned.size + k := by
    intro k hk
    rw [h.rank_new ha.ordered hsame hold hs hk, size_pruned]
  refine Tree.pruned_eq ?_ fun j m hm hsj => ?_
  · rw [hsize, h.size, hnew depth le_rfl]
  · rcases h.old_or_new (lt_size_of_node? hm) with hj | ⟨k, hk, rfl⟩
    · rw [h.rank_old ha.ordered hsame hj.le]
      by_cases hjid : j = id
      · subst hjid
        cases hm.symm.trans h.after
        exact hafter
      · rw [h.stands_old ha.ordered hsame hj] at hsj
        rw [h.others j hj hjid] at hm
        have hlt : t.rank j < t.pruned.size := lt_size_of_node? (node?_pruned hm hsj)
        have hne : t.rank j ≠ t.rank id := fun heq => hjid (rank_inj hsj hs heq)
        rw [hothers _ hlt hne, h.trimmed_old ha.ordered hsame ha hm]
        exact node?_pruned hm hsj
    · rw [hnew k hk.le]
      exact hline k hk m hm

section Taking

variable (ha : t.Arranged active) (hn : t.node? id = some n) (hs : t.stands id = true)

include ha hn hs

/-- **What an instance that stands does with a phrase** it does in the pruned tree. -/
theorem pruned_apply (hans : n.Answers g p c) :
    (t.apply id c).1.pruned = (t.pruned.apply (t.rank id) (c.renumbered t.rank)).1 ∧
      (t.apply id c).1.rank (t.apply id c).2 = (t.pruned.apply (t.rank id) (c.renumbered t.rank)).2 ∧
      (t.apply id c).1.stands (t.apply id c).2 = true := by
  have hgraft := graft_apply hn hans
  have hglobals : (c.on t.size n).globals = n.globals := by cases c <;> rfl
  have hsame : ∀ j < t.size, (c.on t.size n).globals.any (·.node == j) = n.globals.any (·.node == j) := by
    intro j _
    rw [hglobals]
  have hold : ∀ x ∈ (c.on t.size n).globals, x.node < t.size := by
    rw [hglobals]
    exact fun x hx => ha.global_lt hn hx
  have htrimmed := hgraft.trimmed_old ha.ordered hsame ha hn
  have hnode := node?_pruned hn hs
  have hid := hgraft.id_lt
  cases c with
  | replace e =>
    have hentry : e.renumbered (t.apply id (.replace e)).1.rank = e.renumbered t.rank := by
      refine Entry.renumbered_congr fun l hl => ?_
      obtain ⟨last, hlast, hlink⟩ := hans.link?_replace
      obtain ⟨hfirst, hdeepest⟩ := ha.link_lt hn (List.mem_of_mem_head? hlast) (hlink.symm.trans hl)
      exact ⟨hgraft.rank_old ha.ordered hsame hfirst.le, hgraft.rank_old ha.ordered hsame hdeepest.le⟩
    refine ⟨hgraft.pruned_of_stands ha hglobals hs (size_apply ..) ?_ ?_ ?_, ?_, ?_⟩
    · intro k _ hne
      exact (node?_modify ..).trans (if_neg (Ne.symm hne))
    · show (⟨t.pruned.nodes.modify _ _⟩ : Tree).node? _ = some ((n.replaceLast e).trimmed _)
      rw [node?_modify, if_pos rfl, hnode, Node.trimmed_replaceLast, htrimmed, hentry]
      rfl
    · intro k hk
      exact absurd hk (Nat.not_lt_zero k)
    · exact hgraft.rank_old ha.ordered hsame hid.le
    · exact (hgraft.stands_old ha.ordered hsame hid).trans hs
  | grow growth =>
    have hnew : ∀ k < growth.depth, (t.apply id (.grow growth)).1.rank (t.size + k) = t.pruned.size + k := by
      intro k hk
      rw [hgraft.rank_new ha.ordered hsame hold hs (Nat.le_of_lt hk), size_pruned]
    refine ⟨hgraft.pruned_of_stands ha hglobals hs (size_apply ..) ?_ ?_ ?_, ?_, ?_⟩
    · intro k hk hne
      exact (node?_extend_of_lt hk).trans (if_neg (Ne.symm hne))
    · have hlt : t.rank id < t.pruned.size := lt_size_of_node? hnode
      refine (node?_extend_of_lt hlt).trans ?_
      rw [if_pos rfl, hnode, ← Growth.entry_renumbered hnew, ← htrimmed]
      rfl
    · intro k hk m hm
      refine (node?_extend_add ..).trans ?_
      have hm : (growth.nodes id t.size)[k]? = some m := (node?_extend_add ..).symm.trans hm
      rw [← hgraft.rank_old ha.ordered hsame hid.le, ← Growth.nodes_renumbered id hnew, List.getElem?_map, hm]
      rfl
    · have htaker : (t.pruned.apply (t.rank id) (.grow growth)).2 = growth.taker (t.rank id) t.pruned.size := rfl
      rw [hgraft.taker, Change.renumbered, htaker, Growth.taker_eq]
      show (t.apply id (.grow growth)).1.rank (if growth.depth = 0 then id else t.size + (growth.depth - 1)) = _
      split
      · exact hgraft.rank_old ha.ordered hsame hid.le
      · exact hnew _ (by omega)
    · rw [hgraft.taker]
      show (t.apply id (.grow growth)).1.stands (if growth.depth = 0 then id else t.size + (growth.depth - 1)) = _
      split
      · exact (hgraft.stands_old ha.ordered hsame hid).trans hs
      · next hd =>
        have hlast : growth.depth - 1 < growth.depth := Nat.sub_lt (Nat.pos_of_ne_zero hd) Nat.one_pos
        exact (hgraft.stands_new ha.ordered hsame hold hlast).trans hs

/-- What is not read again from an instance that stands is not read again in the pruned tree. -/
theorem pruned_settle :
    (t.settle id).pruned = t.pruned.settle (t.rank id) ∧ (t.settle id).rank id = t.rank id ∧
      (t.settle id).stands id = true := by
  have hgraft := graft_settle hn
  have hid := hgraft.id_lt
  have hsame : ∀ j < t.size, n.globals.any (·.node == j) = n.globals.any (·.node == j) := fun _ _ => rfl
  refine ⟨hgraft.pruned_of_stands ha rfl hs (size_settle ..) ?_ ?_ ?_, hgraft.rank_old ha.ordered hsame hid.le,
    (hgraft.stands_old ha.ordered hsame hid).trans hs⟩
  · intro k _ hne
    exact (node?_modify ..).trans (if_neg (Ne.symm hne))
  · refine (node?_modify ..).trans ?_
    have htrimmed := hgraft.trimmed_old ha.ordered hsame ha hn
    rw [if_pos rfl, node?_pruned hn hs, Node.trimmed_settled, htrimmed]
    rfl
  · intro k hk
    exact absurd hk (Nat.not_lt_zero k)

end Taking

/-- **What a global rule takes cannot be seen** in the pruned tree, nor can the instances that it makes. -/
theorem pruned_adopt (ha : t.Arranged active) (hn : t.node? id = some n) (g : Grammar) (rule : RuleId)
    (growth : Growth) :
    (t.adopt g id rule growth).1.pruned = t.pruned ∧
      (∀ j < t.size, (t.adopt g id rule growth).1.rank j = t.rank j ∧
        (t.adopt g id rule growth).1.stands j = t.stands j) ∧
      ∀ k ≤ growth.depth, (t.adopt g id rule growth).1.stands (t.size + k) = false := by
  obtain ⟨x, hgraft⟩ := graft_adopt g hn rule growth
  have hsame := hgraft.globals_adopted
  have hnew : ∀ k < growth.depth + 1, (t.adopt g id rule growth).1.stands (t.size + k) = false :=
    fun k hk => hgraft.stands_adopted ha.ordered hk
  have htrimmed := hgraft.trimmed_old ha.ordered hsame ha hn
  exact ⟨hgraft.pruned_eq ha.ordered hsame ha hnew fun _ => htrimmed,
    fun j hj => ⟨hgraft.rank_old ha.ordered hsame hj.le, hgraft.stands_old ha.ordered hsame hj⟩,
    fun k hk => hnew k (Nat.lt_succ_of_le hk)⟩

/-- **What happens in a global subtree cannot be seen** in the pruned tree: an entry there gives way. -/
theorem pruned_replace {e : Entry} (ha : t.Arranged active) (hn : t.node? id = some n)
    (hans : n.Answers g p (.replace e)) (hs : t.stands id = false) :
    (t.apply id (.replace e)).1.pruned = t.pruned ∧
      ∀ j < t.size, (t.apply id (.replace e)).1.rank j = t.rank j ∧
        (t.apply id (.replace e)).1.stands j = t.stands j := by
  have hgraft := graft_apply hn hans
  have hsame : ∀ j < t.size, ((Change.replace e).on t.size n).globals.any (·.node == j) =
      n.globals.any (·.node == j) := fun _ _ => rfl
  refine ⟨hgraft.pruned_eq ha.ordered hsame ha (fun k hk => absurd hk (Nat.not_lt_zero k)) fun hstands => ?_,
    fun j hj => ⟨hgraft.rank_old ha.ordered hsame hj.le, hgraft.stands_old ha.ordered hsame hj⟩⟩
  rw [hs] at hstands
  cases hstands

end Tree

end PhraseTree
