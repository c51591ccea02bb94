import PhraseTree.Proofs.Grammar.Leading
import Mathlib.Logic.Relation

/-!
# Cycles of leading rules

What the search for left recursion finds.  `Leading.IsCycle leads cycle` says that `cycle` leads step by step from a rule
back to itself, and through no rule twice in between.

* `Leading.visit_error`: where the search is broken off it has closed a cycle, and every rule of the cycle was entered
  before or can be reached from the rule that was to be visited;
* `Leading.cycle?_eq_some`: the cycle that is found can be reached from the first rule from which any can;
* `Leading.cycle?_eq_none_iff`: none is found if and only if no rule leads to itself;
* `Leading.cycle?_iff_recursive`: the same said of the parts of the rules.  The search succeeds if and only if the graph
  of first instances has a cycle anywhere, and what it returns is one.
-/

namespace PhraseTree

namespace Leading

section Cycle

variable {α : Type} {leads : α → α → Prop}

/-- **A way from something back to itself**, each step a lead and nothing else met twice. -/
def IsCycle (leads : α → α → Prop) (cycle : List α) : Prop :=
  ∃ a inner, cycle = a :: inner ++ [a] ∧ (a :: inner).Nodup ∧ cycle.IsChain leads

/-- Something that leads to itself can be reached from `a`. -/
def Recurs (leads : α → α → Prop) (a : α) : Prop :=
  ∃ b, Relation.ReflTransGen leads a b ∧ Relation.TransGen leads b b

theorem IsCycle.transGen {cycle : List α} (h : IsCycle leads cycle) : ∃ a ∈ cycle, Relation.TransGen leads a a := by
  obtain ⟨a, inner, rfl, -, hchain⟩ := h
  have hgen : (a :: inner ++ [a]).IsChain (Relation.TransGen leads) := hchain.imp fun _ _ hlead => .single hlead
  have hpairwise := List.isChain_iff_pairwise.mp hgen
  exact ⟨a, by simp, (List.pairwise_cons.mp hpairwise).1 a (by simp)⟩

end Cycle

section Visit

variable {edges : RuleId → List RuleId} {steps : Nat} {path done cycle : List RuleId} {id : RuleId}

theorem Recurs.not_acc (h : Recurs (fun a b => b ∈ edges a) id) : ¬ Acc (fun b a => b ∈ edges a) id := by
  obtain ⟨b, hreach, hself⟩ := h
  intro hid
  have hb : Acc (fun b a => b ∈ edges a) b := by
    clear hself
    induction hreach with
    | refl => exact hid
    | tail _ hedge ih => exact ih.inv hedge
  have hirrefl : ∀ x, Acc (Relation.TransGen fun b a => b ∈ edges a) x →
      ¬ Relation.TransGen (fun b a => b ∈ edges a) x x := by
    intro x hx
    induction hx with
    | intro x _ ih => exact fun hxx => ih x hxx hxx
  exact hirrefl b hb.transGen (Relation.transGen_swap.mp hself)

/-! ### Searches that are broken off -/

theorem foldlM_eq_error {ε σ α : Type} {f : σ → α → Except ε σ} {l : List α} {s : σ} {e : ε}
    (h : l.foldlM f s = .error e) :
    ∃ before x after s', l = before ++ x :: after ∧ before.foldlM f s = .ok s' ∧ f s' x = .error e := by
  induction l generalizing s with
  | nil => cases h
  | cons x l ih =>
    simp only [List.foldlM_cons, bind, Except.bind] at h
    cases hx : f s x with
    | error e' =>
      rw [hx] at h
      cases h
      exact ⟨[], x, l, s, rfl, rfl, hx⟩
    | ok s₁ =>
      rw [hx] at h
      obtain ⟨before, y, after, s', rfl, hbefore, hy⟩ := ih h
      refine ⟨x :: before, y, after, s', rfl, ?_, hy⟩
      simp only [List.foldlM_cons, bind, Except.bind, hx, hbefore]

theorem closeAt_isCycle (hpath : path.Nodup) (hchain : (id :: path).IsChain fun b a => b ∈ edges a) (hmem : id ∈ path) :
    IsCycle (fun a b => b ∈ edges a) (closeAt path id) ∧ closeAt path id ⊆ path := by
  obtain ⟨before, after, rfl⟩ := List.append_of_mem hmem
  have hnot : id ∉ before := fun hb => (List.nodup_append.mp hpath).2.2 id hb id (by simp) rfl
  have htake : (before ++ id :: after).takeWhile (· != id) = before := by
    rw [List.takeWhile_append_of_pos (by simpa using fun b hb => ne_of_mem_of_not_mem hb hnot)]
    simp
  have hclose : closeAt (before ++ id :: after) id = id :: before.reverse ++ [id] := by rw [closeAt, htake]
  rw [hclose]
  have hpre : (id :: (before ++ [id])).IsChain fun b a => b ∈ edges a := by
    have hsplit : id :: (before ++ id :: after) = (id :: (before ++ [id])) ++ after := by simp
    rw [hsplit] at hchain
    exact (List.isChain_append.mp hchain).1
  refine ⟨⟨id, before.reverse, rfl, ?_, ?_⟩, ?_⟩
  · rw [List.nodup_cons, List.mem_reverse, List.nodup_reverse]
    exact ⟨hnot, (List.nodup_append.mp hpath).1⟩
  · have hreverse := List.isChain_reverse.mpr hpre
    simpa using hreverse
  · intro a ha
    simp only [List.cons_append, List.mem_cons, List.mem_append, List.mem_reverse, List.not_mem_nil, or_false] at ha
    rcases ha with rfl | hb | rfl
    · exact hmem
    · exact List.mem_append_left _ hb
    · exact hmem

/-- **A search that is broken off has closed a cycle**, through rules that were entered before or are reached from the
rule that was to be visited. -/
theorem visit_error (hpath : path.Nodup) (hchain : (id :: path).IsChain fun b a => b ∈ edges a)
    (h : visit edges steps path done id = .error cycle) :
    IsCycle (fun a b => b ∈ edges a) cycle ∧ ∀ a ∈ cycle, a ∈ path ∨ Relation.ReflTransGen (fun a b => b ∈ edges a) id a := by
  induction steps generalizing path done id with
  | zero =>
    unfold visit at h
    split at h
    · next hmem =>
      cases h
      obtain ⟨hcycle, hsub⟩ := closeAt_isCycle hpath hchain hmem
      exact ⟨hcycle, fun a ha => Or.inl (hsub ha)⟩
    · split at h <;> cases h
  | succ steps ih =>
    unfold visit at h
    split at h
    · next hmem =>
      cases h
      obtain ⟨hcycle, hsub⟩ := closeAt_isCycle hpath hchain hmem
      exact ⟨hcycle, fun a ha => Or.inl (hsub ha)⟩
    · next hnot =>
      split at h
      · cases h
      · dsimp only at h
        cases hfold : (edges id).foldlM (visit edges steps (id :: path)) done with
        | ok done₁ =>
          rw [hfold] at h
          cases h
        | error cycle₁ =>
          rw [hfold] at h
          cases h
          obtain ⟨before, b, after, done₁, hedges, -, hb⟩ := foldlM_eq_error hfold
          have hedge : b ∈ edges id := by rw [hedges]; simp
          obtain ⟨hcycle, hreach⟩ := ih (List.nodup_cons.mpr ⟨hnot, hpath⟩) (hchain.cons_cons hedge) hb
          refine ⟨hcycle, fun a ha => ?_⟩
          rcases hreach a ha with hmem | hfrom
          · rcases List.mem_cons.mp hmem with rfl | hmem
            · exact Or.inr .refl
            · exact Or.inl hmem
          · exact Or.inr (.head hedge hfrom)

end Visit

/-! ### The cycle of a list of rules -/

section Rules

variable {rules : List (Rule RuleId)} {cycle : List RuleId}

/-- **The cycle that is found** can be reached from the first rule from which any can. -/
theorem cycle?_eq_some (hrules : ∀ a, ∀ b ∈ next rules a, b < rules.length) (h : cycle? rules = some cycle) :
    IsCycle (fun a b => b ∈ next rules a) cycle ∧ ∃ root < rules.length,
      (∀ a ∈ cycle, Relation.ReflTransGen (fun a b => b ∈ next rules a) root a) ∧
        ∀ a < root, ¬ Recurs (fun a b => b ∈ next rules a) a := by
  unfold cycle? at h
  split at h
  · next found hfold =>
    cases h
    obtain ⟨before, root, after, done, hsplit, hbefore, hroot⟩ := foldlM_eq_error hfold
    obtain ⟨hcycle, hreach⟩ := visit_error List.nodup_nil (List.isChain_singleton root) hroot
    have hat : (List.range rules.length)[before.length]? = some root := by rw [hsplit]; simp
    obtain ⟨hlt, hval⟩ := List.getElem?_eq_some_iff.mp hat
    rw [List.getElem_range] at hval
    rw [List.length_range] at hlt
    subst hval
    refine ⟨hcycle, before.length, hlt, fun a ha => ?_, fun a ha => ?_⟩
    · rcases hreach a ha with hmem | hfrom
      · cases hmem
      · exact hfrom
    · -- the rules before the root were left without a cycle
      have hmem : a ∈ before := by
        have hget : (List.range rules.length)[a]? = some a := List.getElem?_range (Nat.lt_trans ha hlt)
        rw [hsplit, List.getElem?_append_left ha] at hget
        exact List.mem_of_getElem? hget
      have hvisit : ∀ id ∈ before, ∀ done done',
          (∀ a ∈ done, Acc (fun b a => b ∈ next rules a) a) →
          visit (next rules) rules.length [] done id = .ok done' → Settles (next rules) done done' ∧ id ∈ done' := by
        intro id hid done done' hdone
        have hid' : id ∈ List.range rules.length := by rw [hsplit]; exact List.mem_append_left _ hid
        exact visit_settles hrules List.nodup_nil (by simp) (by simp) (List.mem_range.mp hid') hdone
      obtain ⟨hsettles, hall⟩ := Settles.foldlM hvisit (by simp) hbefore
      exact fun hrecurs => hrecurs.not_acc (hsettles.acc a (hall a hmem))
  · cases h

/-- **No cycle is found if and only if no rule leads to itself**, however far one goes. -/
theorem cycle?_eq_none_iff (hrules : ∀ a, ∀ b ∈ next rules a, b < rules.length) :
    cycle? rules = none ↔ ∀ a, ¬ Relation.TransGen (fun a b => b ∈ next rules a) a a := by
  constructor
  · intro h a hself
    exact Recurs.not_acc ⟨a, .refl, hself⟩ ((wellFounded_of_cycle? hrules h).apply a)
  · intro h
    cases hfound : cycle? rules with
    | none => rfl
    | some cycle =>
      obtain ⟨a, -, hself⟩ := (cycle?_eq_some hrules hfound).1.transGen
      exact absurd hself (h a)

/-! ### The graph of first instances -/

/-- An instance of `a` may begin with one of `b`: `b` is a candidate of one of its choices, and every part before the
choice may be left out. -/
def Edge (rules : List (Rule RuleId)) (a b : RuleId) : Prop :=
  ∃ (rule : Rule RuleId) (i : Nat) (c : RuleChoice RuleId),
    rules[a]? = some rule ∧ rule.parts[i]? = some (.choice c) ∧ Skips Part.isOptional rule.parts 0 i ∧ b ∈ c.candidates

/-- Every candidate is a rule of the list. -/
def Resolved (rules : List (Rule RuleId)) : Prop :=
  ∀ rule ∈ rules, ∀ part ∈ rule.parts, ∀ id ∈ part.candidates, id < rules.length

instance (rules : List (Rule RuleId)) : Decidable (Resolved rules) := by
  unfold Resolved
  infer_instance

theorem mem_next_iff {a b : RuleId} : b ∈ next rules a ↔ Edge rules a b := by
  unfold next Edge
  cases hrule : rules[a]? with
  | none => simp
  | some rule => simp only [mem_of, Option.some.injEq, exists_and_left, exists_eq_left']

theorem Edge.lt_length (hresolved : Resolved rules) {a b : RuleId} (h : Edge rules a b) : b < rules.length := by
  obtain ⟨rule, i, c, hrule, hat, -, hmem⟩ := h
  exact hresolved rule (List.mem_of_getElem? hrule) (.choice c) (List.mem_of_getElem? hat) b hmem

/-- **The search for left recursion is sound and complete.**  It finds something if and only if some rule leads back to
itself, whether the first rule leads there or not, and what it finds leads step by step from a rule back to that rule and
meets no rule twice on the way. -/
theorem cycle?_iff_recursive (hresolved : Resolved rules) :
    ((∃ cycle, cycle? rules = some cycle) ↔ ∃ a, Relation.TransGen (Edge rules) a a) ∧
      ∀ cycle, cycle? rules = some cycle → IsCycle (Edge rules) cycle := by
  have hnext : (fun a b => b ∈ next rules a) = Edge rules := by
    funext a b
    exact propext mem_next_iff
  have hrules : ∀ a, ∀ b ∈ next rules a, b < rules.length := fun a b hb => (mem_next_iff.mp hb).lt_length hresolved
  have hnone := cycle?_eq_none_iff hrules
  have hsome : ∀ cycle, cycle? rules = some cycle → IsCycle (Edge rules) cycle := by
    intro cycle hcycle
    rw [← hnext]
    exact (cycle?_eq_some hrules hcycle).1
  rw [hnext] at hnone
  refine ⟨⟨?_, ?_⟩, hsome⟩
  · rintro ⟨cycle, hcycle⟩
    obtain ⟨a, -, hself⟩ := (hsome cycle hcycle).transGen
    exact ⟨a, hself⟩
  · rintro ⟨a, hself⟩
    rw [← Option.ne_none_iff_exists']
    exact fun h => hnone.mp h a hself

/-- The first rule leads to none of the others.  The second leads to the third twice over, and that leads back behind a
sign that may be left out. -/
def hiddenLoop : List (Rule RuleId) :=
  [⟨"TopLevel", [.simple (.identifier "name")]⟩,
    ⟨"Pair", [.choice { key := "both", candidates := [2, 2] }]⟩,
    ⟨"Member", [.simple (.modifiers { phrases := ["-"], optional := true }),
      .choice { key := "value", candidates := [0, 1] }]⟩]

/-- The loop that the first rule does not reach is found. -/
theorem hiddenLoop_recursive :
    Resolved hiddenLoop ∧ cycle? hiddenLoop = some [1, 2, 1] ∧ IsCycle (Edge hiddenLoop) [1, 2, 1] ∧
      ∃ a, Relation.TransGen (Edge hiddenLoop) a a := by
  have hresolved : Resolved hiddenLoop := by decide
  have hfound : cycle? hiddenLoop = some [1, 2, 1] := by decide
  exact ⟨hresolved, hfound, (cycle?_iff_recursive hresolved).2 _ hfound, (cycle?_iff_recursive hresolved).1.mp ⟨_, hfound⟩⟩

end Rules

end Leading

end PhraseTree
