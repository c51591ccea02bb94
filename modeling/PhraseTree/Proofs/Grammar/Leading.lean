import PhraseTree.Grammar.Basic
import PhraseTree.Proofs.Capture.Shape
import Mathlib.Data.List.Perm.Subperm
import Mathlib.Order.WellFounded

/-!
# Lines of leading rules

`g.LeadsTo a b` says that an instance of `a` may make one of `b` before it takes a phrase.  The search for cycles comes
to every rule, and leaves a rule only after all its leading rules, so where it finds no cycle the relation is well-founded
(`Grammar.leadsTo_wellFounded`).  In a line of rules of which each leads to the next no rule occurs twice, and the line is
at most as long as the grammar has rules (`Grammar.nodup_of_isChain`, `Grammar.length_le_size`).
-/

namespace PhraseTree

/-! ### Leading parts -/

/-- The parts that may come first are those behind optional ones only. -/
theorem mem_uptoRequired {α : Type} {isOptional : α → Bool} {parts : List α} {part : α} :
    part ∈ uptoRequired isOptional parts ↔ ∃ i : Nat, parts[i]? = some part ∧ Skips isOptional parts 0 i := by
  induction parts with
  | nil => simp [uptoRequired]
  | cons first rest ih =>
    have hfirst : (∃ i : Nat, (first :: rest)[i]? = some part ∧ Skips isOptional (first :: rest) 0 i) ↔
        part = first ∨ isOptional first = true ∧ ∃ i : Nat, rest[i]? = some part ∧ Skips isOptional rest 0 i := by
      constructor
      · rintro ⟨i, hat, hskip⟩
        cases i with
        | zero => exact Or.inl (Option.some.inj hat).symm
        | succ i => exact Or.inr ⟨(skips_cons_succ.mp hskip).1, i, hat, (skips_cons_succ.mp hskip).2⟩
      · rintro (rfl | ⟨ho, i, hat, hskip⟩)
        · exact ⟨0, rfl, Skips.refl⟩
        · exact ⟨i + 1, hat, skips_cons_succ.mpr ⟨ho, hskip⟩⟩
    rw [hfirst, uptoRequired]
    split
    · next ho => simp [ih, ho]
    · next ho => simp [ho]

namespace Leading

theorem mem_of_cons {part : Part RuleId} {rest : List (Part RuleId)} {rule : RuleId} :
    rule ∈ of (part :: rest) ↔ rule ∈ part.candidates ∨ part.isOptional = true ∧ rule ∈ of rest := by
  unfold of
  rw [uptoRequired]
  split
  · next ho => simp [ho]
  · next ho => simp [ho]

theorem mem_of {parts : List (Part RuleId)} {rule : RuleId} :
    rule ∈ of parts ↔
      ∃ (i : Nat) (c : RuleChoice RuleId),
        parts[i]? = some (.choice c) ∧ Skips Part.isOptional parts 0 i ∧ rule ∈ c.candidates := by
  simp only [of, List.mem_flatMap, mem_uptoRequired]
  constructor
  · rintro ⟨part, ⟨i, hat, hskip⟩, hmem⟩
    cases part with
    | choice c => exact ⟨i, c, hat, hskip, hmem⟩
    | simple | alternatives => cases hmem
  · rintro ⟨i, c, hat, hskip, hmem⟩
    exact ⟨.choice c, ⟨i, hat, hskip⟩, hmem⟩

/-! ### The search for cycles -/

section Visit

variable {edges : RuleId → List RuleId} {steps n : Nat} {path done done' : List RuleId} {id : RuleId}

/-- What is done is well-founded, and stays done. -/
structure Settles (edges : RuleId → List RuleId) (done done' : List RuleId) : Prop where
  kept : done ⊆ done'
  acc : ∀ a ∈ done', Acc (fun b a => b ∈ edges a) a

theorem Settles.foldlM {visit : List RuleId → RuleId → Except (List RuleId) (List RuleId)} {ids : List RuleId}
    (hvisit : ∀ id ∈ ids, ∀ done done', (∀ a ∈ done, Acc (fun b a => b ∈ edges a) a) → visit done id = .ok done' →
      Settles edges done done' ∧ id ∈ done')
    (hdone : ∀ a ∈ done, Acc (fun b a => b ∈ edges a) a) (h : ids.foldlM visit done = .ok done') :
    Settles edges done done' ∧ ∀ id ∈ ids, id ∈ done' := by
  induction ids generalizing done with
  | nil =>
    cases h
    exact ⟨⟨List.Subset.refl _, hdone⟩, by simp⟩
  | cons id rest ih =>
    simp only [List.foldlM_cons, bind, Except.bind] at h
    split at h
    · cases h
    · next done₁ hfirst =>
      obtain ⟨hsettles₁, hmem₁⟩ := hvisit id List.mem_cons_self done done₁ hdone hfirst
      obtain ⟨hsettles, hmem⟩ := ih (fun b hb => hvisit b (List.mem_cons_of_mem id hb)) hsettles₁.acc h
      refine ⟨⟨fun a ha => hsettles.kept (hsettles₁.kept ha), hsettles.acc⟩, fun b hb => ?_⟩
      rcases List.mem_cons.mp hb with rfl | hb
      · exact hsettles.kept hmem₁
      · exact hmem b hb

/-- **A rule that is left without a cycle is well-founded.**  The steps cannot run out, since the path has each rule
once. -/
theorem visit_settles (hedges : ∀ a, ∀ b ∈ edges a, b < n) (hpath : path.Nodup) (hlt : ∀ a ∈ path, a < n)
    (hsteps : n ≤ path.length + steps) (hid : id < n) (hdone : ∀ a ∈ done, Acc (fun b a => b ∈ edges a) a)
    (h : visit edges steps path done id = .ok done') : Settles edges done done' ∧ id ∈ done' := by
  induction steps generalizing path done done' id with
  | zero =>
    have hmem : id ∈ path := by
      by_contra hnot
      have hnodup : (id :: path).Nodup := List.nodup_cons.mpr ⟨hnot, hpath⟩
      have hsub : id :: path ⊆ List.range n := by
        intro a ha
        rw [List.mem_range]
        rcases List.mem_cons.mp ha with rfl | ha
        · exact hid
        · exact hlt a ha
      have hle := (hnodup.subperm hsub).length_le
      rw [List.length_range, List.length_cons] at hle
      omega
    unfold visit at h
    rw [if_pos hmem] at h
    cases h
  | succ steps ih =>
    unfold visit at h
    split at h
    · cases h
    · next hnot =>
      split at h
      · next hmem =>
        cases h
        exact ⟨⟨List.Subset.refl _, hdone⟩, hmem⟩
      · dsimp only at h
        cases hfold : (edges id).foldlM (visit edges steps (id :: path)) done with
        | error cycle =>
          rw [hfold] at h
          cases h
        | ok done₁ =>
          rw [hfold] at h
          cases h
          have hlt' : ∀ a ∈ id :: path, a < n := by
            intro a ha
            rcases List.mem_cons.mp ha with rfl | ha
            · exact hid
            · exact hlt a ha
          obtain ⟨hsettles, hall⟩ := Settles.foldlM (fun b hb done done' hdone => ih
            (List.nodup_cons.mpr ⟨hnot, hpath⟩) hlt' (by rw [List.length_cons]; omega) (hedges id b hb) hdone) hdone hfold
          refine ⟨⟨fun a ha => List.mem_cons_of_mem id (hsettles.kept ha), fun a ha => ?_⟩, List.mem_cons_self⟩
          rcases List.mem_cons.mp ha with rfl | ha
          · exact Acc.intro a fun b hb => hsettles.acc b (hall b hb)
          · exact hsettles.acc a ha

end Visit

/-- Where the search finds no cycle, no rule leads to itself, however far one goes. -/
theorem wellFounded_of_cycle? {rules : List (Rule RuleId)} (hrules : ∀ a, ∀ b ∈ next rules a, b < rules.length)
    (h : cycle? rules = none) : WellFounded fun b a => b ∈ next rules a := by
  unfold cycle? at h
  split at h
  · cases h
  · next done hfold =>
    have hvisit : ∀ id ∈ List.range rules.length, ∀ done done',
        (∀ a ∈ done, Acc (fun b a => b ∈ next rules a) a) →
        visit (next rules) rules.length [] done id = .ok done' → Settles (next rules) done done' ∧ id ∈ done' := by
      intro id hid done done' hdone
      exact visit_settles hrules List.nodup_nil (by simp) (by simp) (List.mem_range.mp hid) hdone
    obtain ⟨hsettles, hall⟩ := Settles.foldlM hvisit (by simp) hfold
    refine ⟨fun a => ?_⟩
    by_cases ha : a < rules.length
    · exact hsettles.acc a (hall a (List.mem_range.mpr ha))
    · -- what is no rule leads nowhere
      have hnext : next rules a = [] := by
        unfold next
        rw [List.getElem?_eq_none (Nat.le_of_not_lt ha)]
      exact Acc.intro a fun b hb => by
        rw [hnext] at hb
        cases hb

end Leading

/-! ### Lines -/

namespace Grammar

variable {g : Grammar} {a b : RuleId} {line : List RuleId}

/-- **An instance of `a` may make one of `b`** before it takes a phrase. -/
def LeadsTo (g : Grammar) (a b : RuleId) : Prop := b ∈ Leading.of (g.parts a)

instance (g : Grammar) (a b : RuleId) : Decidable (g.LeadsTo a b) := inferInstanceAs (Decidable (b ∈ _))

theorem next_eq (g : Grammar) (a : RuleId) : Leading.next g.rules a = Leading.of (g.parts a) := by
  unfold Leading.next parts
  cases g.rules[a]? <;> rfl

theorem parts_of_size_le (h : g.size ≤ a) : g.parts a = [] := by
  unfold parts
  rw [List.getElem?_eq_none h]

theorem exists_rule_of_mem_parts {part : Part RuleId} (h : part ∈ g.parts a) : ∃ rule ∈ g.rules, part ∈ rule.parts := by
  unfold parts at h
  split at h
  · next rule hrule => exact ⟨rule, List.mem_of_getElem? hrule, h⟩
  · cases h

/-- The candidates of a rule are rules. -/
theorem candidates_lt {c : RuleChoice RuleId} (hc : .choice c ∈ g.parts a) (hb : b ∈ c.candidates) : b < g.size := by
  obtain ⟨rule, hrule, hmem⟩ := exists_rule_of_mem_parts hc
  exact g.sound.candidates_lt rule hrule _ hmem b hb

theorem LeadsTo.lt_size (h : g.LeadsTo a b) : b < g.size := by
  obtain ⟨i, c, hat, -, hmem⟩ := Leading.mem_of.mp h
  exact candidates_lt (List.mem_of_getElem? hat) hmem

/-- **No rule leads to itself**, however far one goes. -/
theorem leadsTo_wellFounded (g : Grammar) : WellFounded fun b a => g.LeadsTo a b := by
  have hrules : ∀ a, ∀ b ∈ Leading.next g.rules a, b < g.rules.length := by
    intro a b hb
    rw [next_eq] at hb
    exact LeadsTo.lt_size hb
  have hwf := Leading.wellFounded_of_cycle? hrules g.sound.acyclic
  simpa only [next_eq, LeadsTo] using hwf

/-- **No rule occurs twice in a line.** -/
theorem nodup_of_isChain (h : line.IsChain g.LeadsTo) : line.Nodup := by
  have hpairwise : line.Pairwise (Relation.TransGen g.LeadsTo) :=
    List.isChain_iff_pairwise.mp (h.imp fun _ _ => .single)
  refine hpairwise.imp fun {a b} hab => ?_
  rintro rfl
  have hirrefl : ¬ Relation.TransGen (fun b a => g.LeadsTo a b) a a :=
    g.leadsTo_wellFounded.transGen.irrefl.irrefl a
  exact hirrefl (Relation.transGen_swap.mp hab)

/-- **A line is at most as long as there are rules.**  It may begin with what is no rule, but then it ends there. -/
theorem length_le_size (h : line.IsChain g.LeadsTo) : line.length ≤ g.size := by
  cases line with
  | nil => exact Nat.zero_le _
  | cons a rest =>
    have hrest : ∀ b ∈ rest, b < g.size := by
      intro b hb
      obtain ⟨c, hc⟩ : ∃ c, g.LeadsTo c b := by
        obtain ⟨before, after, rfl⟩ := List.append_of_mem hb
        have hsplit : (a :: (before ++ b :: after)) = (a :: before) ++ b :: after := rfl
        rw [hsplit, List.isChain_append] at h
        exact ⟨_, h.2.2 _ (List.getLast_mem_getLast? (List.cons_ne_nil a before)) b rfl⟩
      exact hc.lt_size
    by_cases ha : a < g.size
    · have hsub : a :: rest ⊆ List.range g.size := by
        intro b hb
        rw [List.mem_range]
        rcases List.mem_cons.mp hb with rfl | hb
        · exact ha
        · exact hrest b hb
      have hle := ((nodup_of_isChain h).subperm hsub).length_le
      rwa [List.length_range] at hle
    · have hnone : rest = [] := by
        cases rest with
        | nil => rfl
        | cons b rest =>
          have hleads : g.LeadsTo a b := (List.isChain_cons_cons.mp h).1
          rw [LeadsTo, parts_of_size_le (Nat.le_of_not_lt ha)] at hleads
          cases hleads
      rw [hnone]
      exact g.size_pos

end Grammar

end PhraseTree
