import PhraseTree.Proofs.Tree.Conformity
import PhraseTree.Proofs.Tree.Graft

/-!
# How the instances of a tree hang together

`Tree.Arranged t active` says that the instances form one tree: the top level has no parent, every other instance is
made after its parent and is the child of just one entry, which its parent has.  The instances around the active one are
the latest children of their parents.

* `Tree.Graft.arranged`, `Tree.Arranged.settle`: this is kept where a phrase is taken and where something is given back;
* `Tree.Arranged.zero_mem_chain`: every instance can be reached from the top level;
* `Tree.Arranged.span?_isSome`: every instance but the top level covers a stretch of the text.
-/

namespace PhraseTree

variable {g : Grammar} {p : Phrase}

/-- **A well-arranged tree**, where the instance `active` takes the next phrase first. -/
structure Tree.Arranged (t : Tree) (active : Nat) : Prop where
  root : ∃ n, t.node? 0 = some n ∧ n.parent? = none
  parent : ∀ id : Nat, 0 < id → id < t.size → ∃ q, t.parent? id = some q
  /-- A parent has a smaller number than its child. -/
  ordered : t.Ordered
  /-- An instance is the child of one entry of its parent, or of one instance of a global rule there. -/
  owned : ∀ id q : Nat, t.parent? id = some q → (t.children q).count id = 1
  /-- Only its parent has it. -/
  owner : ∀ id q : Nat, id ∈ t.children q → t.parent? id = some q
  filled : ∀ (id : Nat) n, t.node? id = some n → 0 < id → n.entries ≠ []
  /-- What was made together with a child is the child or an instance below it. -/
  deepest : ∀ id n, t.node? id = some n → ∀ x ∈ n.instances, x.deepest < t.size ∧ x.node ∈ t.chain x.deepest
  active_lt : active < t.size
  /-- The active instance and those around it are the latest children of their parents. -/
  spine : ∀ id ∈ t.chain active, ∀ q, t.parent? id = some q → ∃ n, t.node? q = some n ∧ n.Latest id

/-! ### Children -/

theorem Entry.child_of_link? {e : Entry} {l : Nat × Nat} (h : e.link? = some l) :
    ∃ x, e = .child x ∧ x.node = l.1 := by
  obtain ⟨x, hx, rfl⟩ := Option.map_eq_some_iff.mp h
  cases e with
  | capture | fork => cases hx
  | child y => cases hx; exact ⟨x, rfl, rfl⟩

theorem lineLink?_eq_some {base depth : Nat} {l : Nat × Nat} :
    lineLink? base depth = some l ↔ 0 < depth ∧ l = (base, base + (depth - 1)) := by
  unfold lineLink?
  split
  · next h => simp [h]
  · next h => simp [Nat.pos_of_ne_zero h, eq_comm]

theorem Node.child_mem_children {n : Node} {x : Child} (h : .child x ∈ n.entries) : x.node ∈ n.children := by
  have hx : x ∈ n.inOrder.filterMap Entry.child? :=
    List.mem_filterMap.mpr ⟨.child x, List.mem_reverse.mpr h, rfl⟩
  exact List.mem_map.mpr ⟨x, List.mem_append_left _ hx, rfl⟩

theorem Node.global_mem_children {n : Node} {x : Child} (h : x ∈ n.globals) : x.node ∈ n.children :=
  List.mem_map.mpr ⟨x, List.mem_append_right _ (List.mem_reverse.mpr h), rfl⟩

namespace Tree

variable {t t' : Tree} {id active taker depth j k q : Nat} {n n' m : Node}

theorem children_eq (hn : t.node? id = some n) : t.children id = n.links.map Prod.fst := by
  rw [children, hn]
  exact n.children_eq

theorem mem_children_of_node (hn : t.node? q = some n) (h : j ∈ n.children) : j ∈ t.children q := by
  rw [children, hn]
  exact h

theorem node?_of_mem_children (h : j ∈ t.children id) : ∃ n, t.node? id = some n := by
  unfold children at h
  split at h
  · next n hn => exact ⟨n, hn⟩
  · cases h

namespace Graft

variable (h : t.Graft id n n' depth t' taker)

include h

/-- The changed instance has the first new one as a further child. -/
theorem children_changed : (t'.children id).Perm ((if depth = 0 then [] else [t.size]) ++ t.children id) := by
  rw [children_eq h.before, children_eq h.after]
  have hperm := h.links.map Prod.fst
  rw [List.map_append] at hperm
  by_cases hd : depth = 0
  · simpa [lineLink?, hd] using hperm
  · simpa [lineLink?, hd] using hperm

theorem children_others (hq : q < t.size) (hne : q ≠ id) : t'.children q = t.children q := by
  rw [children, children, h.others q hq hne]

/-- A new instance has the next one as its only child. -/
theorem children_new (hk : k < depth) :
    t'.children (t.size + k) = if k + 1 < depth then [t.size + (k + 1)] else [] := by
  obtain ⟨rule, e, hn, hlink⟩ := h.line k hk
  rw [children_eq hn, Node.links_eq]
  by_cases hlast : k + 1 < depth
  · have hrest : depth - (k + 1) ≠ 0 := by omega
    simp [Node.inOrder, hlink, lineLink?, hrest, hlast, Nat.add_assoc]
  · have hrest : depth - (k + 1) = 0 := by omega
    simp [Node.inOrder, hlink, lineLink?, hrest, hlast]

theorem count_children (ha : t.Arranged active) (hq : t'.parent? j = some q) : (t'.children q).count j = 1 := by
  rcases h.old_or_new (lt_size_of_parent? hq) with hj | ⟨k, hk, rfl⟩
  · rw [h.keeps.parent?_eq hj] at hq
    have hlt := ha.ordered j q hq
    have hold := ha.owned j q hq
    by_cases hqid : q = id
    · subst hqid
      rw [h.children_changed.count_eq, List.count_append, hold]
      split
      · simp
      · have hne : t.size ≠ j := by omega
        simp [hne]
    · rw [h.children_others (by omega) hqid]
      exact hold
  · rw [h.parent?_new hk] at hq
    obtain rfl := Option.some.inj hq
    -- the first new instance hangs below the changed one, each further one below the one before it
    cases k with
    | zero =>
      have hfresh : t.size ∉ t.children id := by
        intro hmem
        exact absurd (lt_size_of_parent? (ha.owner _ _ hmem)) (lt_irrefl _)
      rw [if_pos rfl, Nat.add_zero, h.children_changed.count_eq, if_neg (by omega), List.count_append,
        List.count_eq_zero_of_not_mem hfresh]
      simp
    | succ k =>
      rw [if_neg (by omega), Nat.add_sub_cancel, h.children_new (by omega), if_pos hk]
      simp

theorem parent?_of_mem_children (ha : t.Arranged active) (hmem : j ∈ t'.children q) : t'.parent? j = some q := by
  obtain ⟨m, hm⟩ := node?_of_mem_children hmem
  have hkept : j ∈ t.children q → t'.parent? j = some q := by
    intro hold
    have hq := ha.owner j q hold
    rw [h.keeps.parent?_eq (lt_size_of_parent? hq), hq]
  rcases h.old_or_new (lt_size_of_node? hm) with hq | ⟨k, hk, rfl⟩
  · by_cases hqid : q = id
    · subst hqid
      rw [h.children_changed.mem_iff, List.mem_append] at hmem
      rcases hmem with hmem | hmem
      · split at hmem
        · cases hmem
        · next hd =>
          rw [List.mem_singleton.mp hmem]
          exact h.parent?_new (k := 0) (by omega)
      · exact hkept hmem
    · rw [h.children_others hq hqid] at hmem
      exact hkept hmem
  · rw [h.children_new hk] at hmem
    split at hmem
    · next hk' =>
      rw [List.mem_singleton.mp hmem, h.parent?_new hk', if_neg (by omega), Nat.add_sub_cancel]
    · cases hmem

theorem entries_ne_nil (ha : t.Arranged active) (hm : t'.node? j = some m) (hpos : 0 < j) : m.entries ≠ [] := by
  rcases h.old_or_new (lt_size_of_node? hm) with hj | ⟨k, hk, rfl⟩
  · by_cases hjid : j = id
    · subst hjid
      cases hm.symm.trans h.after
      exact h.filled (ha.filled j n h.before hpos)
    · rw [h.others j hj hjid] at hm
      exact ha.filled j m hm hpos
  · obtain ⟨rule, e, hn, -⟩ := h.line k hk
    cases hm.symm.trans hn
    exact List.cons_ne_nil _ _

/-- A link that was there leads down to the same instance. -/
theorem link_old (ha : t.Arranged active) (hm : t.node? j = some m) {l : Nat × Nat} (hl : l ∈ m.links) :
    l.2 < t'.size ∧ l.1 ∈ t'.chain l.2 := by
  obtain ⟨x, hx, rfl⟩ := List.mem_map.mp hl
  obtain ⟨hlt, hmem⟩ := ha.deepest j m hm x hx
  rw [h.size, h.chain_old ha.ordered hlt]
  exact ⟨Nat.lt_add_right depth hlt, hmem⟩

/-- A new link leads down to the end of the new line. -/
theorem link_new (ha : t.Arranged active) {l : Nat × Nat} (hl : lineLink? (t.size + k) (depth - k) = some l) :
    l.2 < t'.size ∧ l.1 ∈ t'.chain l.2 := by
  obtain ⟨hpos, rfl⟩ := lineLink?_eq_some.mp hl
  have hlast : t.size + k + (depth - k - 1) = t.size + (depth - 1) := by omega
  dsimp only
  rw [hlast, h.size, h.mem_chain_new ha.ordered (by omega)]
  exact ⟨by omega, Or.inr ⟨by omega, by omega⟩⟩

theorem links_lead_down (ha : t.Arranged active) (hm : t'.node? j = some m) {l : Nat × Nat} (hl : l ∈ m.links) :
    l.2 < t'.size ∧ l.1 ∈ t'.chain l.2 := by
  rcases h.old_or_new (lt_size_of_node? hm) with hj | ⟨k, hk, rfl⟩
  · by_cases hjid : j = id
    · subst hjid
      cases hm.symm.trans h.after
      rcases List.mem_append.mp (h.links.mem_iff.mp hl) with hl | hl
      · exact h.link_new (k := 0) ha (Option.mem_toList.mp hl)
      · exact h.link_old ha h.before hl
    · rw [h.others j hj hjid] at hm
      exact h.link_old ha hm hl
  · obtain ⟨rule, e, hn, hlink⟩ := h.line k hk
    cases hm.symm.trans hn
    rw [Node.links_eq] at hl
    have hl : e.link? = some l := by simpa [Node.inOrder, eq_comm] using hl
    exact h.link_new (k := k + 1) ha (hlink.symm.trans hl)

/-- The new instances, and what stands around the changed one, are the latest children of their parents. -/
theorem latest_of_mem_chain (ha : t.Arranged active) (hid : id ∈ t.chain active) (hj : j ∈ t'.chain taker)
    (hq : t'.parent? j = some q) : ∃ m, t'.node? q = some m ∧ m.Latest j := by
  rcases (h.mem_chain_taker ha.ordered).mp hj with hold | ⟨hle, hlt⟩
  · -- what stands around the changed instance has other parents than that one
    have hle := ha.ordered.le_of_mem_chain hold
    have hid_lt := h.id_lt
    rw [h.keeps.parent?_eq (by omega)] at hq
    have hqj := ha.ordered j q hq
    obtain ⟨m, hm, hlatest⟩ := ha.spine j (ha.ordered.chain_subset hid j hold) q hq
    exact ⟨m, by rw [h.others q (by omega) (by omega)]; exact hm, hlatest⟩
  · obtain ⟨k, rfl⟩ := Nat.exists_eq_add_of_le hle
    rw [h.size] at hlt
    have hk : k < depth := by omega
    rw [h.parent?_new hk] at hq
    obtain rfl := Option.some.inj hq
    cases k with
    | zero => exact ⟨n', h.after, h.latest hk⟩
    | succ k =>
      obtain ⟨rule, e, hn, hlink⟩ := h.line k (by omega)
      obtain ⟨x, rfl, hx⟩ := Entry.child_of_link? (hlink.trans (lineLink?_eq_some.mpr ⟨by omega, rfl⟩))
      exact ⟨_, hn, Or.inl ⟨x, rfl, hx⟩⟩

/-- **A tree that takes a phrase stays well-arranged.** -/
theorem arranged (ha : t.Arranged active) (hid : id ∈ t.chain active) : t'.Arranged taker where
  root := by
    obtain ⟨m, hm, hp⟩ := ha.root
    obtain ⟨m', hm', -, hp'⟩ := h.keeps 0 m hm
    exact ⟨m', hm', hp'.trans hp⟩
  parent := by
    intro j hpos hj
    rcases h.old_or_new hj with hj | ⟨k, hk, rfl⟩
    · rw [h.keeps.parent?_eq hj]
      exact ha.parent j hpos hj
    · exact ⟨_, h.parent?_new hk⟩
  ordered := h.ordered ha.ordered
  owned := fun _ _ => h.count_children ha
  owner := fun _ _ => h.parent?_of_mem_children ha
  filled := fun _ _ => h.entries_ne_nil ha
  deepest := fun _ _ hm _ hx => h.links_lead_down ha hm (List.mem_map_of_mem hx)
  active_lt := by
    have hlt := h.id_lt
    rw [h.taker, h.size]
    split <;> omega
  spine := fun _ hj _ => h.latest_of_mem_chain ha hid hj

end Graft

/-! ### Well-arranged trees -/

theorem root_arranged : Tree.root.Arranged 0 := by
  have hsize : Tree.root.size = 1 := rfl
  have hparent : ∀ id q, Tree.root.parent? id ≠ some q := by
    intro id q hq
    obtain ⟨n, hn, hp⟩ := node?_of_parent? hq
    rw [node?_root hn] at hp
    cases hp
  have hchildren : ∀ id n, Tree.root.node? id = some n → n.instances = [] := by
    intro id n hn
    rw [node?_root hn]
    rfl
  refine ⟨⟨_, rfl, rfl⟩, ?_, ?_, ?_, ?_, ?_, ?_, Nat.one_pos, ?_⟩
  · intro id hpos hlt
    omega
  · exact fun id q hq => absurd hq (hparent id q)
  · exact fun id q hq => absurd hq (hparent id q)
  · intro id q hmem
    obtain ⟨n, hn⟩ := node?_of_mem_children hmem
    rw [children_eq hn, Node.links, hchildren q n hn] at hmem
    cases hmem
  · intro id n hn hpos
    have hlt : id < Tree.root.size := lt_size_of_node? hn
    omega
  · intro id n hn x hx
    rw [hchildren id n hn] at hx
    cases hx
  · exact fun id _ q hq => absurd hq (hparent id q)

namespace Arranged

variable (h : t.Arranged active)

include h

theorem settle : (t.settle active).Arranged active := by
  obtain ⟨n, hn⟩ := node?_of_lt h.active_lt
  exact (graft_settle hn).arranged h (t.mem_chain_self active)

theorem takes (ht : t.Takes g active p t' taker) : t'.Arranged taker := by
  obtain ⟨id, hid, n, n', depth, hgraft⟩ := ht.graft h.active_lt
  exact hgraft.arranged h hid

/-- Every instance can be reached from the top level. -/
theorem zero_mem_chain (hid : id < t.size) : 0 ∈ t.chain id := by
  induction id using Nat.strongRecOn with
  | ind id ih =>
    rw [h.ordered.mem_chain_iff]
    by_cases hzero : id = 0
    · exact Or.inl hzero.symm
    · obtain ⟨q, hq⟩ := h.parent id (by omega) hid
      have hlt := h.ordered id q hq
      exact Or.inr ⟨q, hq, ih q hlt (by omega)⟩

/-! ### Stretches of the text -/

/-- Following entries down leads to one that has a span of its own. -/
theorem spanWithin_isSome (hc : t.Conforms g) {pick : Node → Option Entry} {steps : Nat}
    (hpick : ∀ n : Node, n.entries ≠ [] → ∃ e ∈ n.entries, pick n = some e) (hpos : 0 < id) (hid : id < t.size)
    (hsteps : t.size - id ≤ steps) : (t.spanWithin pick steps id).isSome = true := by
  -- the numbers grow on the way down, so the size of the tree bounds the steps
  induction steps generalizing id with
  | zero => omega
  | succ steps ih =>
    obtain ⟨n, hn⟩ := node?_of_lt hid
    obtain ⟨e, he, hpicked⟩ := hpick n (h.filled id n hn hpos)
    have hfits := (hc.legal id n hn).fits e he
    simp only [spanWithin, hn, Option.bind_some, hpicked]
    cases e with
    | capture c => rfl
    | child x =>
      have hmem := mem_children_of_node hn (Node.child_mem_children he)
      have hparent := h.owner _ _ hmem
      have hlt := h.ordered _ _ hparent
      have hsize := lt_size_of_parent? hparent
      exact ih (by omega) hsize (by omega)
    | fork f =>
      obtain ⟨a, -, hf⟩ := hfits
      obtain ⟨b, rest, hb⟩ := List.exists_cons_of_ne_nil hf.nonempty
      obtain ⟨path, -, hprog⟩ := hf.progress b (by simp [hb])
      obtain ⟨first, hfirst⟩ := Option.isSome_iff_exists.mp (List.getLast?_isSome.mpr hprog.nonempty)
      obtain ⟨last, earlier, hlast⟩ := List.exists_cons_of_ne_nil hprog.nonempty
      rw [hlast] at hfirst
      simp [Entry.span?, Fork.span?, hb, hlast, hfirst]

/-- **Every instance but the top level covers a stretch of the text.** -/
theorem span?_isSome (hc : t.Conforms g) (hpos : 0 < id) (hid : id < t.size) : (t.span? id).isSome = true := by
  have hstart : (t.start? id).isSome = true := by
    rw [start?, Option.isSome_map]
    refine h.spanWithin_isSome hc (fun n hne => ?_) hpos hid (by omega)
    obtain ⟨e, he⟩ := Option.isSome_iff_exists.mp (List.getLast?_isSome.mpr hne)
    exact ⟨e, List.mem_of_getLast? he, he⟩
  have hstop : (t.stop? id).isSome = true := by
    rw [stop?, Option.isSome_map]
    refine h.spanWithin_isSome hc (fun n hne => ?_) hpos hid (by omega)
    obtain ⟨e, rest, hentries⟩ := List.exists_cons_of_ne_nil hne
    exact ⟨e, by rw [hentries]; exact List.mem_cons_self, by rw [Node.last?, hentries, List.head?_cons]⟩
  obtain ⟨start, hstart⟩ := Option.isSome_iff_exists.mp hstart
  obtain ⟨stop, hstop⟩ := Option.isSome_iff_exists.mp hstop
  simp [span?, hstart, hstop]

end Arranged

end Tree

end PhraseTree
