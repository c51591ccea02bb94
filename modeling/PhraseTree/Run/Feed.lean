import PhraseTree.Run
import PhraseTree.Text.Blank

/-!
# Reading characters

`Run.step` reads one character.  Inside a text the character is offered by itself.  Outside, it lengthens the phrase
being read if it can; otherwise that phrase is placed, and the character opens the next one or is skipped.  Words and
numbers are placed when they are complete; a run of other characters is offered after every character until some
instance takes it.

A step may hand characters back: a text that was closed by a phrase that is not part of it gives the phrase back, and it
is read again before the rest.  `Run.readChar` reads a character together with everything that comes back on its
account, `Run.readAll` a text.  What comes back may give back more in turn, and alternatives whose branches do so one
after the other can keep a text from ever coming to its end, so the nesting is bounded, and there is no answer where the
bound is reached.
-/

namespace PhraseTree

namespace Run

variable (g : Grammar) (s : Settings)

/-! ## one character -/

/-- Places the phrase being read, which cannot grow any more. -/
def flush (r : Run) : Run :=
  match r.buffer? with
  | some p => { (r.resolve g s p true).1 with buffer? := none }
  | none => r

/-- The phrase being read with `ch` at its end, or the phrase that `ch` opens. -/
def grown (r : Run) (kind : PhraseKind) (ch : Char) : Phrase :=
  match r.buffer? with
  | some p => p.push ch
  | none => .single kind r.cursor ch

/-- Takes `ch` into the phrase being read. -/
def hold (r : Run) (kind : PhraseKind) (ch : Char) : Run :=
  { r with buffer? := some (r.grown kind ch), cursor := r.cursor.advance ch }

/-- Lengthens the phrase being read, or opens one; offers it if it is a run of other characters. -/
def push (r : Run) (kind : PhraseKind) (ch : Char) : Run :=
  let p := r.grown kind ch
  let r := r.hold kind ch
  if kind = .chars then
    match r.resolve g s p false with
    | (r, true) => { r with buffer? := none }
    | (r, false) => r
  else r

/-- The run past one character. -/
def past (r : Run) (ch : Char) : Run := { r with cursor := r.cursor.advance ch }

/-- Passes over a character that no phrase holds; only white space is not reported. -/
def skip (r : Run) (ch : Char) : Run :=
  if Text.isBlank ch then r.past ch
  else (r.past ch).report ⟨⟨r.cursor, r.cursor.advance ch⟩, String.singleton ch, .unknownCharacter, []⟩

/-- Reads a character where no phrase is being read. -/
def openWith (r : Run) (ch : Char) : Run :=
  match g.classes.startingKind ch with
  | some kind => r.push g s kind ch
  | none => r.skip ch

/-- Offers a character that belongs to a text, by itself. -/
def takeChar (r : Run) (ch : Char) : Run := ((r.past ch).resolve g s (.single .chars r.cursor ch) true).1

/-- Leaves a text that was just closed; gives what is to be read again. -/
def giveBack (r : Run) : Run × List Char :=
  match r.tree.toReread? r.active with
  | some (phrase, start) => ({ r with tree := r.tree.settle r.active, cursor := start }, phrase.toList)
  | none => (r, [])

/-- Reads a character that belongs to a text; gives what is to be read again. -/
def readText (r : Run) (ch : Char) : Run × List Char := (r.takeChar g s ch).giveBack

/-- Reads one character; gives what is to be read again before the rest. -/
def step (r : Run) (ch : Char) : Run × List Char :=
  if r.inText then r.readText g s ch
  else
    match r.buffer? with
    | none => (r.openWith g s ch, [])
    | some p =>
      if g.classes.continues p.kind ch then (r.push g s p.kind ch, [])
      else
        let r := r.flush g s
        if r.inText then r.readText g s ch else (r.openWith g s ch, [])

/-! ## a whole text -/

/-- Reads one character and then what it gives back, nested at most `depth` deep. -/
def readChar : Nat → Run → Char → Option Run
  | 0, _, _ => none
  | depth + 1, r, ch =>
    let (r, again) := r.step g s ch
    again.foldlM (readChar depth) r

/-- Reads characters in order. -/
def readAll (depth : Nat) (r : Run) (chars : List Char) : Option Run := chars.foldlM (readChar g s depth) r

/-- Reports the innermost instance that needs more at the end of the text. -/
def reportEnd (r : Run) : Run :=
  let chain := r.tree.chain r.active
  match chain.find? (r.tree.needsMore g) with
  | some id => r.report ⟨.emptyAt r.cursor, "", .unfinishedRule (r.tree.place g id), trail g s r.tree chain⟩
  | none => r

/-- Ends the text. -/
def finish (r : Run) : Run :=
  let r := r.flush g s
  if s.reportUnfinished then r.reportEnd g s else r

end Run

namespace Grammar

/-- How deep the reading of a text of the given length may be nested.  Where no two paths of one part hand phrases back,
the length and one more are enough.  Other alternatives may nest deeper and still come to an end, so `2 ^ 40` levels
more are left to them. -/
def allowance (length : Nat) : Nat := length + 1099511627776

/-- The run over a whole text, unless the text does not come to its end. -/
def read? (g : Grammar) (s : Settings) (text : List Char) : Option Run :=
  (Run.readAll g s (allowance text.length) {} text).map (Run.finish g s)

end Grammar

end PhraseTree
