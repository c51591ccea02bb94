import PhraseTree.Fork
import PhraseTree.Grammar.Basic
import PhraseTree.Search

/-!
# Growth

Where a new instance of a rule takes a phrase, it does so with its first part that can: a simple part or alternatives
take it themselves, a rule choice lets the first candidate that can take it make an instance in turn.  The result is a
line of new instances, each the only child of the one before, down to the part that takes the phrase.  A `Growth`
describes such a line without saying where in a tree it will stand, so a search that fails leaves nothing behind.

* `instantiate` searches the growth of a new instance of a rule;
* `growFrom` searches the growth of a list of parts, which is also what an existing instance does.
-/

namespace PhraseTree

/-- The part of a rule that an instance fills, and what is to follow it. -/
structure Slot where
  /-- The place of the part in its rule. -/
  part : Nat
  /-- No separator is due before the next instance. -/
  separated : Bool
  /-- The separator may be left out. -/
  separatorOptional : Bool
deriving DecidableEq

/-- The slot of a new instance: a separator is due if the choice has one. -/
def RuleChoice.slot {ρ : Type} (c : RuleChoice ρ) (part : Nat) : Slot :=
  ⟨part, c.separator?.isNone, c.separatorOptional⟩

/-- How a list of parts takes a phrase. -/
inductive Growth where
  | capture (c : Capture)
  | fork (f : Fork)
  | child (slot : Slot) (rule : RuleId) (growth : Growth)
deriving DecidableEq

namespace Growth

/-- How many instances the line holds. -/
def depth : Growth → Nat
  | .capture _ | .fork _ => 0
  | .child _ _ growth => growth.depth + 1

/-- The rules of the line, outermost first. -/
def rules : Growth → List RuleId
  | .capture _ | .fork _ => []
  | .child _ rule growth => rule :: growth.rules

end Growth

/-! ## searching -/

/-- The first candidate with a growth; `inside` searches one candidate. -/
def firstOf (inside : RuleId → Search Growth) : List RuleId → Search (RuleId × Growth)
  | [] => .fail
  | rule :: rest => (inside rule).inInstance.map (rule, ·) <|> firstOf inside rest

/-- The growth of one part, which stands at place `i`. -/
def growAt (inside : RuleId → Search Growth) (p : Phrase) (i : Nat) : Part RuleId → Search Growth
  | .simple part => .ofOption ((part.begin? i p).map .capture)
  | .alternatives a => .ofOption ((a.begin? i p).map .fork)
  | .choice c => (firstOf inside c.candidates).map fun (rule, growth) => .child (c.slot i) rule growth

/-- The growth of the first part that has one; a required part without one ends the search.  The first part stands at
place `i`. -/
def growFrom (inside : RuleId → Search Growth) (p : Phrase) : Nat → List (Part RuleId) → Search Growth
  | _, [] => .fail
  | i, part :: rest =>
    growAt inside p i part <|> if part.isOptional then growFrom inside p (i + 1) rest else .fail

/-- The growth of a new instance of a rule.  No line of new instances holds a rule twice, so as many levels as there
are rules are enough. -/
def instantiate (g : Grammar) (p : Phrase) : Nat → RuleId → Search Growth
  | 0, _ => .fail
  | levels + 1, rule => growFrom (instantiate g p levels) p 0 (g.parts rule)

/-- The growth of a new instance of a rule of the grammar. -/
def Grammar.sprout (g : Grammar) (p : Phrase) (rule : RuleId) : Search Growth := instantiate g p g.size rule

end PhraseTree
