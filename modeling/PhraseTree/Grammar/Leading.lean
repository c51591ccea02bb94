import PhraseTree.Grammar.Part

/-!
# Left recursion

A rule may instantiate any candidate of its parts up to and including the first required one before it takes a phrase.
These candidates are its *leading rules*; a cycle of leading rules would let a rule instantiate itself for ever.

* `Leading.of` lists the leading rules of a list of parts, in order;
* `Leading.cycle?` searches depth first from every rule and returns the first cycle it closes.
-/

namespace PhraseTree

/-- The number of a rule: its place in the grammar's list. -/
abbrev RuleId := Nat

/-- A named list of parts. -/
structure Rule (ρ : Type) where
  name : String
  parts : List (Part ρ)
deriving DecidableEq

namespace Leading

/-- The rules that may be instantiated before `parts` take a phrase. -/
def of (parts : List (Part RuleId)) : List RuleId :=
  (uptoRequired Part.isOptional parts).flatMap Part.candidates

/-- The leading rules of a rule, given by its number. -/
def next (rules : List (Rule RuleId)) (id : RuleId) : List RuleId :=
  match rules[id]? with
  | some rule => of rule.parts
  | none => []

/-- The cycle closed by going from the newest element of `path` (newest first) back to `id`. -/
def closeAt (path : List RuleId) (id : RuleId) : List RuleId :=
  id :: (path.takeWhile (· != id)).reverse ++ [id]

/-- Follows `edges` from `id`.  `path` holds the rules entered and not left, newest first, `done` those left without
finding a cycle.  No path holds a rule twice, so as many steps as there are rules are enough. -/
def visit (edges : RuleId → List RuleId) :
    Nat → List RuleId → List RuleId → RuleId → Except (List RuleId) (List RuleId)
  | steps, path, done, id =>
    if id ∈ path then .error (closeAt path id)
    else if id ∈ done then .ok done
    else
      match steps with
      | 0 => .ok done
      | steps + 1 => ((edges id).foldlM (visit edges steps (id :: path)) done).map (id :: ·)

/-- The first cycle of leading rules, searched from the rules in order; it ends with the rule it starts with. -/
def cycle? (rules : List (Rule RuleId)) : Option (List RuleId) :=
  match (List.range rules.length).foldlM (visit (next rules) rules.length []) [] with
  | .error cycle => some cycle
  | .ok _ => none

end Leading

end PhraseTree
