import PhraseTree.Proofs.Run.Placing
import PhraseTree.Proofs.Tree.Attempt

/-!
# Phrases that are refused

`Run.attempt` places a phrase with attempts in place, as `Trial.offer` makes them.  In a tree that conforms to the
grammar it does just what `Run.resolve` does with searches (`Run.resolve_eq_attempt`).  What is refused leaves no trace,
be it by a single instance, a list of candidates, the global rules or the whole run (`Grammar.refused_leaves_no_trace`).
-/

namespace PhraseTree

namespace Run

variable {g : Grammar} {s : Settings} {r r' : Run} {p : Phrase} {must : Bool}

/-- The tree, with the counts of the instances set up and given up. -/
def trial (r : Run) : Trial := ⟨r.tree, r.counters.created, r.counters.dropped⟩

/-- The run after a trial, where `active` is the next active instance. -/
def keep (r : Run) (w : Trial) (active : Nat) : Run :=
  { r with tree := w.tree, active, counters := { r.counters with created := w.created, dropped := w.dropped } }

/-- Places `p` with attempts in place. -/
def attempt (g : Grammar) (s : Settings) (r : Run) (p : Phrase) (must : Bool) : Run × Bool :=
  let r := { r with counters := { r.counters with offered := r.counters.offered + 1 } }
  match Trial.offer g p (g.size + 1) r.trial r.active with
  | (some taker, w) => (r.keep w taker, true)
  | (none, w) =>
    match Trial.adopt g p g.size w r.active with
    | (some taker, w) =>
      let r := { r with counters := { r.counters with globalFallbacks := r.counters.globalFallbacks + 1 } }
      (r.keep w taker, true)
    | (none, w) =>
      let (refused, outcome) := Trial.climb g p r.active w r.active
      let left := r.active :: refused
      let unfinished? := (left.find? (w.tree.needsMore g)).map (w.tree.place g)
      let origin := w.tree.place g r.active
      match outcome with
      | (some (id, taker), w) =>
        let r := { r with counters := { r.counters with ancestorFallbacks := r.counters.ancestorFallbacks + 1 } }
        ((r.keep w taker).reportLeaving g s p must true ⟨origin, unfinished?, left ++ [id]⟩, true)
      | (none, w) => ((r.keep w r.active).reportLeaving g s p must false ⟨origin, unfinished?, left⟩, false)

/-- **Searches and attempts in place come to the same**, in a tree that conforms to the grammar. -/
theorem resolve_eq_attempt (s : Settings) (p : Phrase) (must : Bool) (hc : r.tree.Conforms g)
    (hactive : r.active < r.tree.size) : r.resolve g s p must = r.attempt g s p must := by
  have hclimb : (r.tree.climbWithin g p r.active r.active) = r.tree.climb g p r.active := rfl
  -- a refusal leaves the tree alone, so each of the three stages starts from the tree of `r`
  unfold resolve attempt
  dsimp only
  rw [Trial.offer_eq g p (by exact hc)]
  cases hown : (r.tree.offer g p r.active).found? with
  | some change =>
    rw [Trial.carry_of_found (by exact hown)]
    rfl
  | none =>
    rw [Trial.carry_of_none (by exact hown)]
    dsimp only
    rw [Trial.adopt_eq g p (by exact hactive)]
    cases hglobal : (Tree.offerGlobal g p).found? with
    | some found =>
      rw [Trial.carry_of_found (by exact hglobal)]
      simp [trial, keep, tally, Run.adopt, Nat.add_assoc]
    | none =>
      rw [Trial.carry_of_none (by exact hglobal)]
      dsimp only
      rw [Trial.climb_eq g p (by exact hc)]
      cases htaken : (r.tree.climb g p r.active).taken? with
      | some found =>
        rw [Trial.carry_of_found (by exact htaken)]
        simp [trial, keep, tally, Run.change, Nat.add_assoc, Tree.leaving, htaken, hclimb]
      | none =>
        rw [Trial.carry_of_none (by exact htaken)]
        simp [trial, keep, tally, Nat.add_assoc, Tree.leaving, htaken, hclimb]

theorem reportLeaving_refused (l : Leaving) : reportLeaving g s r p false false l = r := by
  unfold reportLeaving
  cases l.unfinished? <;> rfl

theorem resolve_refused (h : r.resolve g s p false = (r', false)) : ∃ counters, r' = { r with counters } := by
  have hresolves := resolve_resolves g s r p false
  rw [h] at hresolves
  cases hresolves with
  | @refused counters => exact ⟨counters, reportLeaving_refused _⟩

end Run

/-- **What is refused leaves no trace.**  Where an instance, a list of candidates or the global rules refuse a phrase,
the tree is the same as before, whatever was set up and given up on the way.  This is so where attempts are made in
place; in a tree that conforms to the grammar the searches come to the same, carried out.  A phrase that may still grow
and is refused changes nothing but the counters of the run. -/
theorem Grammar.refused_leaves_no_trace (g : Grammar) (p : Phrase) :
    (∀ levels w id w', Trial.offer g p levels w id = (none, w') → w'.tree = w.tree) ∧
      (∀ levels w parent candidates w',
        Trial.tryRules (Trial.offer g p levels) parent candidates w = (none, w') → w'.tree = w.tree) ∧
      (∀ levels w id w', Trial.adopt g p levels w id = (none, w') → w'.tree = w.tree) ∧
      (∀ w : Trial, w.tree.Conforms g → ∀ id : Nat, id < w.tree.size →
        Trial.offer g p (g.size + 1) w id =
            w.carry (w.tree.offer g p id) Change.made (fun t change => t.apply id change) ∧
          Trial.adopt g p g.size w id =
            w.carry (Tree.offerGlobal g p) (·.2.depth + 1) fun t x => t.adopt g id x.1 x.2) ∧
      (∀ s (r : Run) must, r.tree.Conforms g → r.active < r.tree.size →
        r.resolve g s p must = r.attempt g s p must) ∧
      ∀ s (r : Run) r', r.resolve g s p false = (r', false) → ∃ counters, r' = { r with counters } := by
  refine ⟨?_, ?_, ?_, ?_, ?_, ?_⟩
  · exact fun levels w id w' h => Trial.offer_restores g p levels w id w' h
  · exact fun levels w parent candidates w' h => Trial.tryRules_restores (Trial.offer_restores g p levels) h
  · exact fun levels w id w' h => Trial.adopt_restores g p levels w id w' h
  · exact fun w hc id hid => ⟨Trial.offer_eq g p hc id, Trial.adopt_eq g p hid⟩
  · exact fun s r must hc hactive => Run.resolve_eq_attempt s p must hc hactive
  · exact fun s r r' h => Run.resolve_refused h

namespace Nested

/-- Pairs, which begin with an instance of another rule. -/
def rules : List (Rule RuleId) := [⟨topLevelName, [.choice { key := "pairs", candidates := [1] }]⟩,
  ⟨"Pair", [.choice { key := "key", candidates := [2], singular := true }, .simple (.keyword ";")]⟩,
  ⟨"Key", [.simple (.identifier "name")]⟩]

theorem sound_rules : Sound rules { key := "global", candidates := [1], optional := true } {} := by
  constructor <;> decide +kernel

def grammar : Grammar := ⟨rules, _, _, sound_rules⟩

/-- A phrase that begins no pair. -/
def stop : Phrase := .single .chars .start '!'

/-- The top level alone, before anything is tried. -/
def untried : Trial := ⟨.root, 0, 0⟩

/-- A pair and its key are set up for the top level, for its only candidate and for the global rules, and given up. -/
theorem no_trace_of_stop : ∃ w₁ w₂ w₃ r,
    (Trial.offer grammar stop 4 untried 0 = (none, w₁) ∧ w₁.dropped = 2 ∧ w₁.tree = .root) ∧
      (Trial.tryRules (Trial.offer grammar stop 3) 0 [1] untried = (none, w₂) ∧ w₂.dropped = 2 ∧ w₂.tree = .root) ∧
      (Trial.adopt grammar stop 3 untried 0 = (none, w₃) ∧ w₃.dropped = 2 ∧ w₃.tree = .root) ∧
      (Trial.offer grammar stop (grammar.size + 1) untried 0 =
        untried.carry (Tree.root.offer grammar stop 0) Change.made fun t change => t.apply 0 change) ∧
      ({} : Run).resolve grammar {} stop false = (r, false) ∧ ({} : Run).attempt grammar {} stop false = (r, false) ∧
        ∃ counters, r = { counters } := by
  obtain ⟨hoffer, hrules, hadopt, heq, hattempt, hrefused⟩ := grammar.refused_leaves_no_trace stop
  have hconforms : Tree.root.Conforms grammar := Tree.root_conforms grammar
  have hone : 0 < Tree.root.size := Nat.one_pos
  have h₁ : (Trial.offer grammar stop 4 untried 0).1 = none := by decide +kernel
  have h₂ : (Trial.tryRules (Trial.offer grammar stop 3) 0 [1] untried).1 = none := by decide +kernel
  have h₃ : (Trial.adopt grammar stop 3 untried 0).1 = none := by decide +kernel
  have hresolve : (({} : Run).resolve grammar {} stop false).2 = false := by decide +kernel
  have hr := Prod.ext (y := ((({} : Run).resolve grammar {} stop false).1, false)) rfl hresolve
  refine ⟨_, _, _, _, ⟨Prod.ext h₁ rfl, by decide +kernel, hoffer _ _ _ _ (Prod.ext h₁ rfl)⟩,
    ⟨Prod.ext h₂ rfl, by decide +kernel, hrules _ _ _ _ _ (Prod.ext h₂ rfl)⟩,
    ⟨Prod.ext h₃ rfl, by decide +kernel, hadopt _ _ _ _ (Prod.ext h₃ rfl)⟩, (heq untried hconforms 0 hone).1, hr, ?_,
    hrefused {} {} _ hr⟩
  rw [← hattempt {} {} false hconforms hone]
  exact hr

end Nested

end PhraseTree
