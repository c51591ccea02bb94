import PhraseTree.Diagnostic
import PhraseTree.Grammar.Basic

/-!
# Messages

A diagnostic in a sentence, with what the grammar would have taken instead: the parts after the one that the diagnostic
names, up to and including the first required one.
-/

namespace PhraseTree

namespace Grammar

/-- How messages speak of a part: a rule choice is the list of its candidates. -/
def describe (g : Grammar) : Part RuleId → String
  | .simple p => p.describe
  | .alternatives a => a.describe
  | .choice c => " | ".intercalate (c.candidates.map g.name)

/-- What may follow the part that `place` names.  The next part is counted in words, so after the largest word comes
the first part. -/
def expected (g : Grammar) (place : Place) : String :=
  match g.find? place.rule with
  | none => "nothing (unknown rule)"
  | some rule =>
    match uptoRequired Part.isOptional ((g.parts rule).drop (place.part + 1).toNat) with
    | [] => "nothing (rule should be complete)"
    | parts => ", then ".intercalate (parts.map g.describe)

end Grammar

namespace Diagnostic

/-- The diagnostic in a sentence. -/
def message (g : Grammar) (d : Diagnostic) : String :=
  match d.reason with
  | .unknownCharacter => "Unknown character encountered: \"" ++ d.content ++ "\""
  | .unfinishedRule place =>
    "Unfinished rule \"" ++ place.rule ++ "\". Expected: " ++ g.expected place ++ ", received: \"" ++ d.content ++ "\""
  | .unexpectedPhrase place =>
    "Unexpected phrase encountered for rule \"" ++ place.rule ++ "\". Expected: " ++ g.expected place ++
      ", received: \"" ++ d.content ++ "\""

end Diagnostic

end PhraseTree
