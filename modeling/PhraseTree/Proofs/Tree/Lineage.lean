import PhraseTree.Proofs.Tree.Nodes

/-!
# The instances around an instance

In an ordered tree a parent has a smaller number than its child (`Tree.Ordered`).  There `Tree.ancestors` goes all the
way up, so a chain is an instance followed by the chain of its parent (`Tree.Ordered.chain_of_parent`,
`Tree.Ordered.mem_chain_iff`).  A chain stays as it is in every tree that keeps the parents (`Tree.Keeps.chain_eq`).
-/

namespace PhraseTree

namespace Tree

variable {t t' : Tree} {id a b q : Nat} {n : Node}

theorem parent?_eq (hn : t.node? id = some n) : t.parent? id = n.parent? := by rw [parent?, hn, Option.bind_some]

theorem node?_of_parent? (h : t.parent? id = some q) : ∃ n, t.node? id = some n ∧ n.parent? = some q :=
  Option.bind_eq_some_iff.mp h

theorem lt_size_of_parent? (h : t.parent? id = some q) : id < t.size := by
  obtain ⟨n, hn, -⟩ := node?_of_parent? h
  exact lt_size_of_node? hn

theorem node?_of_lt (h : id < t.size) : ∃ n, t.node? id = some n := ⟨_, Array.getElem?_eq_getElem h⟩

/-- A parent has a smaller number than its child. -/
def Ordered (t : Tree) : Prop := ∀ id q : Nat, t.parent? id = some q → q < id

theorem mem_chain_self (t : Tree) (id : Nat) : id ∈ t.chain id := List.mem_cons_self

/-! ### Chains -/

namespace Ordered

/-- As many steps up as the number of the instance says are enough. -/
theorem ancestorsWithin_eq (h : t.Ordered) {steps steps' : Nat} (hle : id ≤ steps) (hle' : id ≤ steps') :
    t.ancestorsWithin steps id = t.ancestorsWithin steps' id := by
  have hnone : t.parent? 0 = none := by
    by_contra hne
    obtain ⟨q, hq⟩ := Option.ne_none_iff_exists'.mp hne
    have := h 0 q hq
    omega
  induction steps generalizing steps' id with
  | zero =>
    obtain rfl : id = 0 := by omega
    cases steps' with
    | zero => rfl
    | succ steps' => simp only [ancestorsWithin, hnone]
  | succ steps ih =>
    cases steps' with
    | zero =>
      obtain rfl : id = 0 := by omega
      simp only [ancestorsWithin, hnone]
    | succ steps' =>
      cases hp : t.parent? id with
      | none => simp only [ancestorsWithin, hp]
      | some q =>
        have hlt := h id q hp
        simp only [ancestorsWithin, hp]
        rw [ih (Nat.lt_succ_iff.mp (hlt.trans_le hle)) (Nat.lt_succ_iff.mp (hlt.trans_le hle'))]

theorem ancestors_of_parent (h : t.Ordered) (hp : t.parent? id = some q) : t.ancestors id = t.chain q := by
  have hlt := h id q hp
  obtain ⟨steps, rfl⟩ : ∃ steps, id = steps + 1 := ⟨id - 1, by omega⟩
  rw [ancestors, ancestorsWithin, hp]
  show q :: t.ancestorsWithin steps q = q :: t.ancestorsWithin q q
  rw [h.ancestorsWithin_eq (by omega) le_rfl]

theorem ancestors_of_none (hp : t.parent? id = none) : t.ancestors id = [] := by
  unfold ancestors
  cases id with
  | zero => rfl
  | succ steps => simp only [ancestorsWithin, hp]

theorem chain_of_parent (h : t.Ordered) (hp : t.parent? id = some q) : t.chain id = id :: t.chain q := by
  rw [chain, h.ancestors_of_parent hp]

theorem chain_of_none (hp : t.parent? id = none) : t.chain id = [id] := by rw [chain, ancestors_of_none hp]

theorem mem_chain_iff (h : t.Ordered) : a ∈ t.chain id ↔ a = id ∨ ∃ q, t.parent? id = some q ∧ a ∈ t.chain q := by
  cases hp : t.parent? id with
  | none => simp [chain_of_none hp]
  | some q => simp [h.chain_of_parent hp]

theorem le_of_mem_chain (h : t.Ordered) (ha : a ∈ t.chain id) : a ≤ id := by
  induction id using Nat.strongRecOn with
  | ind id ih =>
    rcases h.mem_chain_iff.mp ha with rfl | ⟨q, hp, ha⟩
    · exact le_rfl
    · have hlt := h id q hp
      have hle := ih q hlt ha
      omega

/-- From an instance of a chain on, the chain is that of the instance. -/
theorem chain_of_append (h : t.Ordered) {earlier rest : List Nat} (hc : t.chain id = earlier ++ a :: rest) :
    t.chain a = a :: rest := by
  induction earlier generalizing id with
  | nil =>
    obtain ⟨rfl, hrest⟩ := List.cons.inj hc
    rw [chain, hrest]
  | cons b earlier ih =>
    cases hp : t.parent? id with
    | none =>
      rw [chain_of_none hp] at hc
      simp at hc
    | some q =>
      rw [h.chain_of_parent hp] at hc
      exact ih (List.cons.inj hc).2

theorem chain_subset (h : t.Ordered) (ha : a ∈ t.chain id) : ∀ b ∈ t.chain a, b ∈ t.chain id := by
  obtain ⟨earlier, rest, hc⟩ := List.append_of_mem ha
  intro b hb
  rw [h.chain_of_append hc] at hb
  rw [hc]
  exact List.mem_append_right earlier hb

end Ordered

/-! ### Trees with the same parents -/

theorem Keeps.parent?_eq (hk : t.Keeps t') (hid : id < t.size) : t'.parent? id = t.parent? id := by
  obtain ⟨n, hn⟩ := node?_of_lt hid
  obtain ⟨n', hn', -, hp⟩ := hk id n hn
  rw [Tree.parent?_eq hn, Tree.parent?_eq hn', hp]

theorem Keeps.chain_eq (hk : t.Keeps t') (h : t.Ordered) (h' : t'.Ordered) (hid : id < t.size) :
    t'.chain id = t.chain id := by
  induction id using Nat.strongRecOn with
  | ind id ih =>
    have hsame := hk.parent?_eq hid
    cases hp : t.parent? id with
    | none => rw [Ordered.chain_of_none hp, Ordered.chain_of_none (hsame.trans hp)]
    | some q =>
      have hlt := h id q hp
      rw [h.chain_of_parent hp, h'.chain_of_parent (hsame.trans hp), ih q hlt (by omega)]

end Tree

end PhraseTree
