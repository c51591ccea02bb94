import PhraseTree.Phrase

/-!
# Parts of a rule

A rule is an ordered list of parts.  A *simple part* takes phrases itself and never refers to a rule; a *rule choice*
is filled by instances of other rules; *alternatives* are several sequences of simple parts, of which one is to be
completed.

Rules are declared by name and used by number, so parts are parametrized by what a reference to a rule is.
-/

namespace PhraseTree

/-! ## simple parts -/

/-- A set of phrases of which one, or each at most once in any order, may occur. -/
structure Modifiers where
  phrases : List String
  singular : Bool := false
  optional : Bool := false
deriving DecidableEq

/-- A stretch of text kept as it is, from an opening phrase up to a closing one.  Without an opening phrase any phrase
but the closing one opens it.  A closing phrase that is handed back stays outside the text and is read again. -/
structure TextPart where
  key : String
  opening? : Option String
  closing : String
  handsBack : Bool := false
  optional : Bool := false
deriving DecidableEq

/-- A part that takes phrases without the help of other rules. -/
inductive SimplePart where
  | keyword (phrase : String)
  | identifier (key : String)
  | number (key : String)
  | modifiers (part : Modifiers)
  | text (part : TextPart)
deriving DecidableEq

namespace SimplePart

/-- Keywords, identifiers and numbers are always required. -/
def isOptional : SimplePart → Bool
  | .keyword _ | .identifier _ | .number _ => false
  | .modifiers m => m.optional
  | .text t => t.optional

/-- The name under which what the part took can be found. -/
def key? : SimplePart → Option String
  | .identifier key | .number key => some key
  | .text t => some t.key
  | .keyword _ | .modifiers _ => none

/-- How messages speak of the part. -/
def describe : SimplePart → String
  | .keyword phrase => "\"" ++ phrase ++ "\""
  | .identifier key => "'" ++ key ++ "' identifier"
  | .number key => "'" ++ key ++ "' number"
  | .modifiers m => "one of [" ++ ", ".intercalate (m.phrases.map fun p => "\"" ++ p ++ "\"") ++ "]"
  | .text t =>
    match t.opening? with
    | some opening => "'" ++ opening ++ "' ... '" ++ t.closing ++ "'"
    | none => "text until '" ++ t.closing ++ "'"

end SimplePart

/-- A sequence of simple parts, followed from its first part. -/
abbrev Path := List SimplePart

/-! ## parts -/

/-- A place for instances of the candidate rules; a plural one takes several, with an optional or required separator
between them. -/
structure RuleChoice (ρ : Type) where
  key : String
  candidates : List ρ
  optional : Bool := false
  singular : Bool := false
  separator? : Option String := none
  separatorOptional : Bool := false
deriving DecidableEq

/-- Sequences of simple parts that are followed side by side. -/
structure Alternatives where
  paths : List Path
  optional : Bool := false
deriving DecidableEq

namespace Alternatives

/-- How messages speak of alternatives. -/
def describe (a : Alternatives) : String :=
  "either of the following: " ++
    " , ".intercalate (a.paths.map fun path => " ".intercalate (path.map SimplePart.describe))

end Alternatives

/-- One part of a rule. -/
inductive Part (ρ : Type) where
  | simple (part : SimplePart)
  | choice (part : RuleChoice ρ)
  | alternatives (part : Alternatives)
deriving DecidableEq

namespace Part

variable {ρ : Type}

/-- Whether the part may be left out. -/
def isOptional : Part ρ → Bool
  | .simple p => p.isOptional
  | .choice c => c.optional
  | .alternatives a => a.optional

/-- The name under which what the part took can be found. -/
def key? : Part ρ → Option String
  | .simple p => p.key?
  | .choice c => some c.key
  | .alternatives _ => none

/-- Whether the part takes phrases itself, by a single sequence. -/
def isSimple : Part ρ → Bool
  | .simple _ => true
  | _ => false

/-- The candidates of a rule choice; other parts have none. -/
def candidates : Part ρ → List ρ
  | .choice c => c.candidates
  | _ => []

end Part

/-! ## required and optional parts -/

/-- Whether every part from the `n`-th on may be left out. -/
def restOptional {α : Type} (isOptional : α → Bool) (parts : List α) (n : Nat) : Bool :=
  (parts.drop n).all isOptional

/-- The parts up to and including the first required one: those that may come next. -/
def uptoRequired {α : Type} (isOptional : α → Bool) : List α → List α
  | [] => []
  | p :: rest => if isOptional p then p :: uptoRequired isOptional rest else [p]

end PhraseTree
