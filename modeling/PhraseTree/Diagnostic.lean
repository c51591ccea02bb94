import PhraseTree.Cursor
import PhraseTree.Place
import PhraseTree.Text.Quoted

/-!
# Diagnostics

Input that cannot be placed never stops the reading; it is reported.  A `Diagnostic` says where, what was met, why it is
a fault, and which instances were asked, the innermost first.
-/

namespace PhraseTree

/-- Why something is reported. -/
inductive Reason where
  /-- A character that no phrase may hold. -/
  | unknownCharacter
  /-- A rule was left, or the text ended, before its required parts were there. -/
  | unfinishedRule (place : Place)
  /-- A phrase that nothing takes. -/
  | unexpectedPhrase (place : Place)
deriving DecidableEq

/-- Whether what follows may still use the result. -/
inductive Severity where
  | advisory
  | fatal
deriving DecidableEq

namespace Reason

/-- The place that a reason names. -/
def place? : Reason → Option Place
  | .unknownCharacter => none
  | .unfinishedRule place | .unexpectedPhrase place => some place

/-- Unknown characters are advisory, everything else is fatal. -/
def severity : Reason → Severity
  | .unknownCharacter => .advisory
  | .unfinishedRule _ | .unexpectedPhrase _ => .fatal

/-- A reason in words. -/
def render : Reason → String
  | .unknownCharacter => "unknown character"
  | .unfinishedRule place => "unfinished rule " ++ place.render
  | .unexpectedPhrase place => "unexpected phrase for " ++ place.render

end Reason

/-- One report. -/
structure Diagnostic where
  span : Span
  content : String
  reason : Reason
  trail : List Place
deriving DecidableEq

namespace Diagnostic

/-- The severity of the reason. -/
def severity (d : Diagnostic) : Severity := d.reason.severity

/-- Whether the diagnostic forbids further use. -/
def isFatal (d : Diagnostic) : Bool := d.severity = .fatal

/-- The span, the reason and the quoted content on one line. -/
def render (d : Diagnostic) : String :=
  d.span.render ++ ": " ++ d.reason.render ++ " " ++ Text.quoted d.content

end Diagnostic

/-- Whether some report forbids further use. -/
def hasFatal (reports : List Diagnostic) : Bool := reports.any (·.isFatal)

end PhraseTree
