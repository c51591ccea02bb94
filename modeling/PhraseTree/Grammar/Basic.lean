import PhraseTree.CharClass
import PhraseTree.Grammar.Leading

/-!
# Grammars

A grammar is a list of rules that refer to each other by number, a global choice whose rules are tried where nothing
else fits, and the character classes.  Rule `0` is the top level, where reading starts.

A `Grammar` carries the proof that it is sound: names are distinct, references lead to rules, ranges are in order, and
no rule can instantiate itself before it takes a phrase.
-/

namespace PhraseTree

/-- The name of rule `0`. -/
def topLevelName : String := "TopLevel"

/-- What building a grammar makes sure of. -/
structure Sound (rules : List (Rule RuleId)) (global : RuleChoice RuleId) (classes : CharClasses) : Prop where
  topLevel : rules.head?.map Rule.name = some topLevelName
  names_nodup : (rules.map Rule.name).Nodup
  candidates_lt : ∀ rule ∈ rules, ∀ part ∈ rule.parts, ∀ id ∈ part.candidates, id < rules.length
  global_lt : ∀ id ∈ global.candidates, id < rules.length
  ranges_ordered : ∀ range ∈ classes.ranges, range.isOrdered = true
  acyclic : Leading.cycle? rules = none

/-- A grammar that can be read with. -/
structure Grammar where
  rules : List (Rule RuleId)
  global : RuleChoice RuleId
  classes : CharClasses
  sound : Sound rules global classes

namespace Grammar

/-- The number of the top-level rule. -/
def topLevel : RuleId := 0

/-- How many rules there are, the top level among them. -/
def size (g : Grammar) : Nat := g.rules.length

/-- The parts of a rule. -/
def parts (g : Grammar) (id : RuleId) : List (Part RuleId) :=
  match g.rules[id]? with
  | some rule => rule.parts
  | none => []

/-- The name of a rule. -/
def name (g : Grammar) (id : RuleId) : String :=
  match g.rules[id]? with
  | some rule => rule.name
  | none => ""

/-- The number of the rule called `name`. -/
def find? (g : Grammar) (name : String) : Option RuleId := g.rules.findIdx? (·.name == name)

theorem size_pos (g : Grammar) : 0 < g.size := by
  have h := g.sound.topLevel
  unfold size
  cases hr : g.rules with
  | nil => simp [hr] at h
  | cons _ _ => simp

end Grammar

end PhraseTree
