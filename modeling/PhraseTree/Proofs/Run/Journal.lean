import PhraseTree.Proofs.Run.Reached
import PhraseTree.Proofs.Text.Lexer

/-!
# The journal of a run

A journal says which phrases a run offers, in which order and with what success, and which characters it reports as
unknown.

* `Run.stepLog g s r ch` — what happens while a character is read; `Grammar.journal? g s text` — the result of a text
  with its journal, beside `Grammar.read?` (`Grammar.journal?_fst`);
* `Run.Plays g s log r` — placing the phrases and reporting the characters of the journal, and nothing else, leads to
  `r`; that of a run leads to its end (`Grammar.journal?_plays`);
* `Run.Plays.offered`, `Run.Plays.unknown_reports`: what the counters and the reports say about the journal.
-/

namespace PhraseTree

/-- What happens in a run, as far as it can be seen from outside. -/
inductive Event where
  /-- A phrase is offered; `taken` tells whether some instance took it. -/
  | offer (p : Phrase) (must taken : Bool)
  /-- A character that no phrase may hold is reported. -/
  | unknown (span : Span) (ch : Char)
deriving DecidableEq

namespace Event

/-- Whether the phrase is not read on afterwards, be it taken or given up. -/
def leaves : Event → Bool
  | .offer _ must taken => must || taken
  | .unknown _ _ => true

def isOffer : Event → Bool
  | .offer _ _ _ => true
  | .unknown _ _ => false

/-- The word or number that is offered, and whether it has to be placed. -/
def lexeme? : Event → Option (Phrase × Bool)
  | .offer p must _ => if p.kind = .chars then none else some (p, must)
  | .unknown _ _ => none

/-- The other characters that are offered. -/
def run? : Event → Option Phrase
  | .offer p _ _ => if p.kind = .chars then some p else none
  | .unknown _ _ => none

/-- The report about an unknown character. -/
def report? : Event → Option Diagnostic
  | .unknown span ch => some (.unknown span ch)
  | .offer _ _ _ => none

end Event

/-- Whether the report is about an unknown character. -/
def Diagnostic.isUnknown (d : Diagnostic) : Bool :=
  match d.reason with
  | .unknownCharacter => true
  | .unexpectedPhrase _ | .unfinishedRule _ => false

namespace Run

variable (g : Grammar) (s : Settings)

/-! ### What happens while a character is read -/

/-- The phrase being read is placed. -/
def flushLog (r : Run) : List Event :=
  match r.buffer? with
  | some p => [.offer p true (r.resolve g s p true).2]
  | none => []

/-- A run of other characters is offered as far as it has come. -/
def pushLog (r : Run) (kind : PhraseKind) (ch : Char) : List Event :=
  if kind = .chars then
    [.offer (r.grown kind ch) false ((r.hold kind ch).resolve g s (r.grown kind ch) false).2]
  else []

/-- A character that no phrase holds is reported, unless it is white space. -/
def skipLog (r : Run) (ch : Char) : List Event :=
  if Text.isBlank ch then [] else [.unknown ⟨r.cursor, r.cursor.advance ch⟩ ch]

def openLog (r : Run) (ch : Char) : List Event :=
  match g.classes.startingKind ch with
  | some kind => r.pushLog g s kind ch
  | none => r.skipLog ch

/-- A character that belongs to a text is offered by itself. -/
def textLog (r : Run) (ch : Char) : List Event :=
  [.offer (.single .chars r.cursor ch) true ((r.past ch).resolve g s (.single .chars r.cursor ch) true).2]

/-- **What happens while a character is read.** -/
def stepLog (r : Run) (ch : Char) : List Event :=
  if r.inText then r.textLog g s ch
  else
    match r.buffer? with
    | none => r.openLog g s ch
    | some p =>
      if g.classes.continues p.kind ch then r.pushLog g s p.kind ch
      else
        r.flushLog g s ++
          if (r.flush g s).inText then (r.flush g s).textLog g s ch else (r.flush g s).openLog g s ch

/-! ### What happens while a text is read -/

/-- Reads one character and what it gives back, and keeps the journal. -/
def readCharLog : Nat → Run × List Event → Char → Option (Run × List Event)
  | 0, _, _ => none
  | depth + 1, x, ch =>
    (x.1.step g s ch).2.foldlM (readCharLog depth) ((x.1.step g s ch).1, x.2 ++ x.1.stepLog g s ch)

/-- Reads characters in order, and keeps the journal. -/
def readAllLog (depth : Nat) (x : Run × List Event) (chars : List Char) : Option (Run × List Event) :=
  chars.foldlM (readCharLog g s depth) x

/-- Placing the phrases and reporting the characters of a journal, one after the other, leads to this run.  No other
phrase is placed. -/
inductive Plays (g : Grammar) (s : Settings) : List Event → Run → Prop
  | start : Plays g s [] {}
  | offer {log : List Event} {r : Run} (p : Phrase) (must : Bool) (h : Plays g s log r) :
      Plays g s (log ++ [.offer p must (r.resolve g s p must).2]) (r.resolve g s p must).1
  | unknown {log : List Event} {r : Run} (span : Span) (ch : Char) (h : Plays g s log r) :
      Plays g s (log ++ [.unknown span ch]) (r.report (.unknown span ch))
  /-- A text is left. -/
  | settle {log : List Event} {r : Run} (h : Plays g s log r) :
      Plays g s log { r with tree := r.tree.settle r.active }
  /-- Where the run stands in the text, and what it has read there, does not matter. -/
  | frame {log : List Event} {r : Run} (buffer? : Option Phrase) (cursor : Cursor) (h : Plays g s log r) :
      Plays g s log { r with buffer?, cursor }
  /-- What is unfinished at the end of the text is reported. -/
  | finish {log : List Event} {r : Run} (h : Plays g s log r) : Plays g s log (r.reportEnd g s)

end Run

/-- The result of a text, with its journal. -/
def Grammar.journal? (g : Grammar) (s : Settings) (text : List Char) : Option (Run × List Event) :=
  (Run.readAllLog g s (allowance text.length) ({}, []) text).map fun x => (x.1.finish g s, x.2 ++ x.1.flushLog g s)

namespace Run

variable {g : Grammar} {s : Settings} {r : Run} {log : List Event} {x y : Run × List Event} {chars : List Char}
  {ch : Char} {kind : PhraseKind} {depth : Nat}

theorem readAllLog_cons : readAllLog g s depth x (ch :: chars) =
    (readCharLog g s depth x ch).bind fun x => readAllLog g s depth x chars := by
  simp only [readAllLog, List.foldlM_cons]
  rfl

theorem readCharLog_succ : readCharLog g s (depth + 1) x ch =
    readAllLog g s depth ((x.1.step g s ch).1, x.2 ++ x.1.stepLog g s ch) (x.1.step g s ch).2 := rfl

theorem readAllLog_fst (depth : Nat) (x : Run × List Event) (chars : List Char) :
    (readAllLog g s depth x chars).map Prod.fst = readAll g s depth x.1 chars := by
  induction depth generalizing x chars with
  | zero => cases chars <;> rfl
  | succ depth ih =>
    induction chars generalizing x with
    | nil => rfl
    | cons ch chars ihchars =>
      have hagain := ih ((x.1.step g s ch).1, x.2 ++ x.1.stepLog g s ch) (x.1.step g s ch).2
      dsimp only at hagain
      rw [readAllLog_cons, readAll_cons, readCharLog_succ, readChar_succ, ← hagain, Option.map_bind, Option.bind_map]
      exact congrArg (Option.bind _) (funext fun y => ihchars y)

/-- **The rule for journals.**  What every step keeps is kept by reading characters with all they give back. -/
theorem readAllLog_rule {P : List Event → Run → Prop}
    (hstep : ∀ {r log ch}, P log r → P (log ++ r.stepLog g s ch) (r.step g s ch).1) (h : P x.2 x.1)
    (hread : readAllLog g s depth x chars = some y) : P y.2 y.1 := by
  induction depth generalizing x chars y with
  | zero =>
    cases chars with
    | nil => cases hread; exact h
    | cons ch chars => cases hread
  | succ depth ih =>
    induction chars generalizing x with
    | nil => cases hread; exact h
    | cons ch chars ihchars =>
      rw [readAllLog_cons, readCharLog_succ, Option.bind_eq_some_iff] at hread
      obtain ⟨z, hagain, hread⟩ := hread
      exact ihchars (ih (hstep h) hagain) hread

theorem Resolves.unknown_reports {r' : Run} {p : Phrase} {must taken : Bool} (h : Resolves g s p must r r' taken) :
    r'.reports.filter Diagnostic.isUnknown = r.reports.filter Diagnostic.isUnknown := by
  have hleaving : ∀ (r : Run) (taken : Bool) (l : Leaving),
      (reportLeaving g s r p must taken l).reports.filter Diagnostic.isUnknown =
        r.reports.filter Diagnostic.isUnknown := by
    intro r taken l
    unfold reportLeaving
    cases l.unfinished? with
    | none => dsimp only; split <;> rfl
    | some place => dsimp only; split <;> split <;> rfl
  cases h with
  | own | global => rfl
  | ancestor | refused => exact hleaving _ _ _

namespace Plays

theorem flush (h : Plays g s log r) : Plays g s (log ++ r.flushLog g s) (r.flush g s) := by
  unfold flushLog
  cases hbuffer : r.buffer? with
  | none =>
    have hflush : r.flush g s = r := by simp only [Run.flush, hbuffer]
    rwa [hflush, List.append_nil]
  | some p =>
    rw [flush_of_some hbuffer]
    exact (h.offer p true).frame _ _

theorem push (h : Plays g s log r) : Plays g s (log ++ r.pushLog g s kind ch) (r.push g s kind ch) := by
  have hhold : Plays g s log (r.hold kind ch) := h.frame _ _
  by_cases hkind : kind = .chars
  · subst hkind
    rw [push_chars, pushLog, if_pos rfl]
    split
    · exact (hhold.offer _ false).frame _ _
    · exact hhold.offer _ false
  · rw [push_eq_of_ne hkind, pushLog, if_neg hkind, List.append_nil]
    exact hhold

theorem openWith (h : Plays g s log r) : Plays g s (log ++ r.openLog g s ch) (r.openWith g s ch) := by
  unfold openLog Run.openWith
  cases g.classes.startingKind ch with
  | some kind => exact h.push
  | none =>
    have hpast : Plays g s log (r.past ch) := h.frame _ _
    simp only [skipLog, Run.skip]
    split
    · rwa [List.append_nil]
    · exact hpast.unknown _ ch

theorem readText (h : Plays g s log r) : Plays g s (log ++ r.textLog g s ch) (r.readText g s ch).1 := by
  have hpast : Plays g s log (r.past ch) := h.frame _ _
  have htake : Plays g s (log ++ r.textLog g s ch) (r.takeChar g s ch) := hpast.offer _ true
  rw [Run.readText]
  cases hback : (r.takeChar g s ch).tree.toReread? (r.takeChar g s ch).active with
  | none => rwa [giveBack_of_none hback]
  | some back =>
    rw [giveBack_of_some hback]
    exact htake.settle.frame _ _

theorem step (h : Plays g s log r) : Plays g s (log ++ r.stepLog g s ch) (r.step g s ch).1 := by
  unfold Run.step stepLog
  split
  · exact h.readText
  · cases r.buffer? with
    | none => exact h.openWith
    | some p =>
      dsimp only
      split
      · exact h.push
      · rw [← List.append_assoc]
        split
        · exact h.flush.readText
        · exact h.flush.openWith

/-- Every offer of a journal is counted, and nothing else. -/
theorem offered (h : Plays g s log r) : r.counters.offered = log.countP Event.isOffer := by
  induction h with
  | start => rfl
  | offer p must h ih => rw [offered_resolve, ih, List.countP_append]; rfl
  | unknown span ch h ih => rw [List.countP_append]; exact ih
  | settle h ih | frame _ _ h ih => exact ih
  | @finish log r h ih =>
    rw [← ih]
    unfold reportEnd
    dsimp only
    split <;> rfl

/-- The unknown characters of a journal are reported, in order, and no others. -/
theorem unknown_reports (h : Plays g s log r) :
    r.reports.reverse.filter Diagnostic.isUnknown = log.filterMap Event.report? := by
  induction h with
  | start => rfl
  | @offer log r p must h ih =>
    rw [List.filterMap_append, ← ih, List.filter_reverse, List.filter_reverse,
      (resolve_resolves g s r p must).unknown_reports]
    exact (List.append_nil _).symm
  | unknown span ch h ih =>
    rw [List.filterMap_append, ← ih, report, List.reverse_cons, List.filter_append]
    rfl
  | settle h ih | frame _ _ h ih => exact ih
  | @finish log r h ih =>
    rw [← ih]
    obtain ⟨-, -, hsame | ⟨place, trail, hmore⟩⟩ := reportEnd_cases g s r
    · rw [hsame]
    · rw [hmore, List.filter_reverse, List.filter_reverse]
      rfl

end Plays

end Run

/-- Keeping a journal has no part in the result of a text. -/
theorem Grammar.journal?_fst (g : Grammar) (s : Settings) (text : List Char) :
    (g.journal? s text).map Prod.fst = g.read? s text := by
  have hread := Run.readAllLog_fst (g := g) (s := s) (allowance text.length) ({}, []) text
  dsimp only at hread
  rw [journal?, read?, ← hread, Option.map_map, Option.map_map]
  rfl

/-- **The journal of a text leads to its result.** -/
theorem Grammar.journal?_plays {g : Grammar} {s : Settings} {text : List Char} {r : Run} {log : List Event}
    (h : g.journal? s text = some (r, log)) : Run.Plays g s log r := by
  obtain ⟨x, hread, he⟩ := Option.map_eq_some_iff.mp h
  cases he
  have hplays : Run.Plays g s x.2 x.1 := Run.readAllLog_rule (P := Run.Plays g s) (fun h => h.step) .start hread
  unfold Run.finish
  dsimp only
  split
  · exact hplays.flush.finish
  · exact hplays.flush

end PhraseTree
