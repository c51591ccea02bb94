import PhraseTree.Grammar.Part

/-!
# Captures

A `Capture` is what a simple part has taken so far.  `SimplePart.begin?` starts one with a phrase, `SimplePart.resume?`
lengthens one:

* keywords, identifiers and numbers take one phrase and are finished;
* modifiers take each of their phrases once, in any order, and are finished when they hold as many as were declared;
* a text takes its opening phrase and then everything that follows, until the closing phrase stands at the end of what
  follows the opening phrase.
-/

namespace PhraseTree

/-- What a simple part has taken. -/
structure Capture where
  /-- The place of the part in its list. -/
  part : Nat
  /-- The phrases of modifiers; one value for any other part. -/
  values : List String
  span : Span
  /-- No further phrase is taken. -/
  finished : Bool := false
  /-- Everything that follows belongs to the text. -/
  inText : Bool := false
  /-- How many characters opened the text. -/
  opening : Nat := 0
  /-- The closing phrase that is to be read again. -/
  handBack? : Option String := none
deriving DecidableEq

namespace Capture

/-- The capture of one phrase. -/
def ofPhrase (part : Nat) (p : Phrase) : Capture := { part, values := [p.text], span := p.span }

/-- The first value, which is the only one of every part but modifiers. -/
def value (c : Capture) : String := c.values.headD ""

/-- The capture up to the end of `p`, with the given values. -/
def upTo (c : Capture) (p : Phrase) (values : List String) : Capture :=
  { c with values, span := { c.span with stop := p.span.stop } }

/-- What is to be read again, and from where. -/
def toReread? (c : Capture) : Option (String × Cursor) := c.handBack?.map fun phrase => (phrase, c.span.stop)

/-- The capture with nothing left to be read again. -/
def settled (c : Capture) : Capture := { c with handBack? := none }

end Capture

/-! ## texts -/

namespace TextPart

/-- Whether `phrase` opens the text. -/
def opens (t : TextPart) (phrase : String) : Bool :=
  match t.opening? with
  | some opening => opening == phrase
  | none => t.closing != phrase

/-- Whether the closing phrase stands at the end of `value` and after its first `opening` characters.  An empty phrase
closes nothing. -/
def closes (t : TextPart) (opening : Nat) (value : String) : Bool :=
  !t.closing.isEmpty && decide (opening + t.closing.length ≤ value.length) && value.endsWith t.closing

theorem closes_iff {t : TextPart} {opening : Nat} {value : String} :
    t.closes opening value = true ↔
      t.closing ≠ "" ∧ opening + t.closing.length ≤ value.length ∧ t.closing.toList <:+ value.toList := by
  have h : value.endsWith t.closing = true ↔ t.closing.toList <:+ value.toList := by
    rw [← String.endsWith_toSlice, String.Slice.endsWith_string_iff, String.copy_toSlice]
  simp [closes, h, and_assoc]

/-- What is left of `value` when the closing phrase at its end is taken away. -/
def keep (t : TextPart) (value : String) : List Char := value.toList.take (value.length - t.closing.length)

/-- The first capture of a text. -/
def begin? (t : TextPart) (i : Nat) (p : Phrase) : Option Capture :=
  if t.opens p.text then some { Capture.ofPhrase i p with inText := true, opening := p.text.toList.length } else none

/-- The text with `p` at its end. -/
def resume? (t : TextPart) (p : Phrase) (c : Capture) : Option Capture :=
  if c.inText then
    let value := c.value ++ p.text
    if t.closes c.opening value then
      if t.handsBack then
        let kept := t.keep value
        some { c with
          values := [String.ofList kept]
          span := { c.span with stop := c.span.start.advanceOver kept }
          finished := true
          inText := false
          handBack? := some t.closing }
      else some { c.upTo p [value] with finished := true, inText := false }
    else some (c.upTo p [value])
  else none

end TextPart

/-! ## modifiers -/

namespace Modifiers

/-- The first modifier. -/
def begin? (m : Modifiers) (i : Nat) (p : Phrase) : Option Capture :=
  if p.text ∈ m.phrases then
    some { Capture.ofPhrase i p with finished := m.singular || m.phrases.length == 1 }
  else none

/-- One more modifier, if it is declared and was not taken before. -/
def resume? (m : Modifiers) (p : Phrase) (c : Capture) : Option Capture :=
  if p.text ∈ m.phrases ∧ p.text ∉ c.values then
    let values := c.values ++ [p.text]
    some { c.upTo p values with finished := decide (m.phrases.length ≤ values.length) }
  else none

end Modifiers

/-! ## simple parts -/

namespace SimplePart

/-- A capture of the part at place `i` that starts with `p`. -/
def begin? (part : SimplePart) (i : Nat) (p : Phrase) : Option Capture :=
  let whole := { Capture.ofPhrase i p with finished := true }
  match part with
  | .keyword phrase => if phrase = p.text then some whole else none
  | .identifier _ => if p.kind = .word then some whole else none
  | .number _ => if p.kind = .number then some whole else none
  | .modifiers m => m.begin? i p
  | .text t => t.begin? i p

/-- The capture `c` lengthened by `p`. -/
def resume? (part : SimplePart) (p : Phrase) (c : Capture) : Option Capture :=
  match part with
  | .keyword _ | .identifier _ | .number _ => none
  | .modifiers m => m.resume? p c
  | .text t => t.resume? p c

/-- The capture after `p`: lengthened where there is one, begun otherwise. -/
def take? (part : SimplePart) (i : Nat) (p : Phrase) : Option Capture → Option Capture
  | none => part.begin? i p
  | some c => part.resume? p c

end SimplePart

/-! ## sequences -/

namespace Path

/-- Begins the first part that takes `p`; a required part that does not take it ends the search.  `i` is the place of
the first part. -/
def begin? (p : Phrase) : Nat → Path → Option Capture
  | _, [] => none
  | i, part :: rest =>
    match part.begin? i p with
    | some c => some c
    | none => if part.isOptional then begin? p (i + 1) rest else none

/-- Where the sequence goes on after place `i`: at the next place.  A capture may have been made elsewhere; a place that
the sequence does not have is a 64-bit word, and the largest word is followed by the first place. -/
def next (path : Path) (i : Nat) : Nat := if i < path.length then i + 1 else (i + 1) % 18446744073709551616

theorem next_of_lt {path : Path} {i : Nat} (h : i < path.length) : path.next i = i + 1 := if_pos h

/-- Offers `p` to a sequence whose latest capture is `last?`.  An unfinished capture is lengthened if it can be;
otherwise a later part begins. -/
def take? (path : Path) (p : Phrase) : Option Capture → Option Capture
  | none => begin? p 0 path
  | some c =>
    let onward := begin? p (path.next c.part) (path.drop (path.next c.part))
    if c.finished then onward
    else
      match path[c.part]? with
      | none => none
      | some part =>
        match part.resume? p c with
        | some c' => some c'
        | none => onward

end Path

end PhraseTree
