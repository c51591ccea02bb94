import PhraseTree.Run.Feed

/-!
# Sessions

A `Session` reads one text with one grammar.  Before the text was read there is no result to take; afterwards no second
text can be read.  Counters, reports and the tree can be looked at at any time.
-/

namespace PhraseTree

/-- Why a session does not answer. -/
inductive SessionError where
  | notStarted
  | alreadyUsed
  /-- The text keeps handing phrases back. -/
  | endless
deriving DecidableEq

/-- The text of an error. -/
def SessionError.message : SessionError → String
  | .notStarted => "Parsing not started yet"
  | .alreadyUsed => "A parser instance can only run once, create a new one instead"
  | .endless => "The text hands phrases back without end"

/-- What a text was read to. -/
structure Outcome where
  tree : Tree
  reports : List Diagnostic
  /-- The counters, if they were asked for. -/
  counters? : Option Counters

namespace Outcome

/-- Whether some report forbids further use. -/
def hasFatal (o : Outcome) : Bool := PhraseTree.hasFatal o.reports

/-- How many entries the top level has. -/
def topLevelEntries (o : Outcome) : Nat := ((o.tree.node? 0).map (·.entries.length)).getD 0

end Outcome

/-- The reading of one text. -/
structure Session where
  settings : Settings := {}
  run : Run := {}
  used : Bool := false

namespace Session

/-- Reads the text of the session. -/
def read (g : Grammar) (s : Session) (text : String) : Except SessionError Session :=
  if s.used then .error .alreadyUsed
  else
    match g.read? s.settings text.toList with
    | some run => .ok { s with run, used := true }
    | none => .error .endless

/-- The top-level instance, once the text was read. -/
def topLevel (s : Session) : Except SessionError NodeId := if s.used then .ok 0 else .error .notStarted

/-- What was reported so far, in the order of the reports. -/
def reports (s : Session) : List Diagnostic := s.run.reports.reverse

/-- The counters, if the settings ask for them. -/
def counters? (s : Session) : Option Counters := if s.settings.collectStats then some s.run.counters else none

/-- The result, once the text was read. -/
def outcome (s : Session) : Except SessionError Outcome :=
  if s.used then .ok ⟨s.run.tree, s.reports, s.counters?⟩ else .error .notStarted

end Session

/-- What `text` is read to with `g`. -/
def Grammar.outcome (g : Grammar) (settings : Settings) (text : String) : Except SessionError Outcome := do
  let s ← Session.read g { settings } text
  s.outcome

/-- A session gives what the run over its text comes to. -/
theorem Grammar.outcome_eq (g : Grammar) (s : Settings) (text : String) :
    g.outcome s text = match g.read? s text.toList with
      | some r => .ok ⟨r.tree, r.reports.reverse, if s.collectStats then some r.counters else none⟩
      | none => .error .endless := by
  unfold Grammar.outcome Session.read
  cases g.read? s text.toList <;> rfl

end PhraseTree
