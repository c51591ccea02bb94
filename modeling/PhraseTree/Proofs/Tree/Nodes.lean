import PhraseTree.Proofs.Tree.Answer

/-!
# The instances of a changed tree

Which instances a tree holds after a change, and what the new ones look like.  A statement about all instances is kept
by a change if it is kept by the one instance that is changed and holds of the new ones (`Tree.All.extend`,
`Tree.All.modify`).
-/

namespace PhraseTree

/-! ### The line of new instances -/

namespace Growth

/-- The `k`-th new instance has one entry, which begins what is left of the line. -/
theorem nodes_getElem? {growth : Growth} {parent base k : Nat} {n : Node}
    (h : (growth.nodes parent base)[k]? = some n) :
    ∃ rule inner, n = ⟨rule, some (if k = 0 then parent else base + (k - 1)), [inner.entry (base + k + 1)], []⟩ ∧
      inner.depth + k + 1 = growth.depth ∧
      inner.nodes (base + k) (base + k + 1) = (growth.nodes parent base).drop (k + 1) ∧
      ∀ g p parts i, Grows g p parts i growth → Grows g p (g.parts rule) 0 inner := by
  induction growth generalizing parent base k with
  | capture c | fork f => simp [nodes] at h
  | child slot rule growth ih =>
    cases k with
    | zero =>
      simp only [nodes, List.getElem?_cons_zero, Option.some.injEq] at h
      refine ⟨rule, growth, by simp [← h], by simp [depth], by simp [nodes], ?_⟩
      intro g p parts i hg
      cases hg with
      | child _ _ _ _ hgrows => exact hgrows
    | succ k =>
      simp only [nodes, List.getElem?_cons_succ] at h
      obtain ⟨rule', inner, hn, hdepth, hnodes, hgrows⟩ := ih h
      have hbase : base + 1 + k = base + (k + 1) := by omega
      rw [hbase] at hn hnodes
      refine ⟨rule', inner, ?_, by simp only [depth]; omega, by simpa [nodes] using hnodes, ?_⟩
      · rw [hn]
        rcases k with _ | k
        · simp
        · simp only [Nat.add_one_ne_zero, if_false, Nat.add_sub_cancel]
          rw [Nat.add_right_comm base 1 k]
          rfl
      · intro g p parts i hg
        cases hg with
        | child _ _ _ _ hinner => exact hgrows _ _ _ _ hinner

end Growth

/-! ### Instances by number -/

namespace Tree

variable {t : Tree} {id j : NodeId} {n : Node} {growth : Growth} {put : Node → Node}

theorem lt_size_of_node? (h : t.node? j = some n) : j < t.size := (Array.getElem?_eq_some_iff.mp h).1

theorem node?_modify (t : Tree) (id j : NodeId) (put : Node → Node) :
    (⟨t.nodes.modify id put⟩ : Tree).node? j = if id = j then (t.node? j).map put else t.node? j := by
  simp only [node?, Array.getElem?_modify]

/-- Changing an instance twice is changing it once. -/
theorem modify_modify (nodes : Array Node) (id : NodeId) (put put' : Node → Node) :
    (nodes.modify id put).modify id put' = nodes.modify id fun n => put' (put n) := by
  refine Array.toList_inj.mp ?_
  rw [Array.toList_modify, Array.toList_modify, Array.toList_modify, List.modify_modify_eq]
  rfl

theorem node?_extend_of_lt (h : j < t.size) :
    (t.extend id growth put).node? j = if id = j then (t.node? j).map put else t.node? j := by
  rw [← node?_modify]
  simp only [node?, extend]
  rw [Array.getElem?_append_left (by simpa [size] using h)]

theorem node?_extend_add (t : Tree) (id k : NodeId) (growth : Growth) (put : Node → Node) :
    (t.extend id growth put).node? (t.size + k) = (growth.nodes id t.size)[k]? := by
  simp only [node?, extend, size]
  rw [Array.getElem?_append_right (by simp)]
  simp

/-- The instances of a tree of which one was changed. -/
theorem node?_modify_cases (h : (⟨t.nodes.modify id put⟩ : Tree).node? j = some n) :
    (j ≠ id ∧ t.node? j = some n) ∨ ∃ m, j = id ∧ t.node? id = some m ∧ n = put m := by
  rw [node?_modify] at h
  split at h
  · next he =>
    subst he
    obtain ⟨m, hm, rfl⟩ := Option.map_eq_some_iff.mp h
    exact Or.inr ⟨m, rfl, hm, rfl⟩
  · next hne => exact Or.inl ⟨Ne.symm hne, h⟩

/-- The instances of a tree of which one was changed, with new ones below it. -/
theorem node?_extend_cases (h : (t.extend id growth put).node? j = some n) :
    (j ≠ id ∧ t.node? j = some n) ∨ (∃ m, j = id ∧ t.node? id = some m ∧ n = put m) ∨
      ∃ k, j = t.size + k ∧ (growth.nodes id t.size)[k]? = some n := by
  rcases Nat.lt_or_ge j t.size with hj | hj
  · rw [node?_extend_of_lt hj, ← node?_modify] at h
    rcases node?_modify_cases h with hold | hput
    · exact Or.inl hold
    · exact Or.inr (Or.inl hput)
  · obtain ⟨k, rfl⟩ := Nat.exists_eq_add_of_le hj
    rw [node?_extend_add] at h
    exact Or.inr (Or.inr ⟨k, rfl, h⟩)

/-- A statement about every instance and its number. -/
def All (P : NodeId → Node → Prop) (t : Tree) : Prop := ∀ id n, t.node? id = some n → P id n

theorem All.modify {P : NodeId → Node → Prop} (h : t.All P)
    (hput : ∀ n, t.node? id = some n → P id n → P id (put n)) : (⟨t.nodes.modify id put⟩ : Tree).All P := by
  intro j n hn
  rcases node?_modify_cases hn with ⟨-, hold⟩ | ⟨m, rfl, hm, rfl⟩
  · exact h j n hold
  · exact hput m hm (h _ m hm)

theorem All.extend {P : NodeId → Node → Prop} (h : t.All P)
    (hput : ∀ n, t.node? id = some n → P id n → P id (put n))
    (hnew : ∀ k n, (growth.nodes id t.size)[k]? = some n → P (t.size + k) n) : (t.extend id growth put).All P := by
  intro j n hn
  rcases node?_extend_cases hn with ⟨-, hold⟩ | ⟨m, rfl, hm, rfl⟩ | ⟨k, rfl, hk⟩
  · exact h j n hold
  · exact hput m hm (h _ m hm)
  · exact hnew k n hk

/-- An instance keeps its rule and its parent. -/
def Keeps (t t' : Tree) : Prop :=
  ∀ id n, t.node? id = some n → ∃ n', t'.node? id = some n' ∧ n'.rule = n.rule ∧ n'.parent? = n.parent?

theorem keeps_modify (hrule : ∀ n, (put n).rule = n.rule) (hparent : ∀ n, (put n).parent? = n.parent?) :
    t.Keeps ⟨t.nodes.modify id put⟩ := by
  intro j n hn
  rw [node?_modify, hn]
  split
  · exact ⟨put n, rfl, hrule n, hparent n⟩
  · exact ⟨n, rfl, rfl, rfl⟩

theorem keeps_extend (hrule : ∀ n, (put n).rule = n.rule) (hparent : ∀ n, (put n).parent? = n.parent?) :
    t.Keeps (t.extend id growth put) := by
  intro j n hn
  rw [node?_extend_of_lt (lt_size_of_node? hn), ← node?_modify]
  exact keeps_modify hrule hparent j n hn

end Tree

end PhraseTree
