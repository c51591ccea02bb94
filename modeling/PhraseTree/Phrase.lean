import PhraseTree.Cursor

/-!
# Phrases

A phrase is a run of characters of one kind that is offered to the grammar as a whole: a word, a number, or a run of
other characters.
-/

namespace PhraseTree

/-- What the characters of a phrase make together. -/
inductive PhraseKind where
  | word
  | number
  | chars
deriving DecidableEq

/-- A run of characters with its kind and its place in the text. -/
structure Phrase where
  text : String
  kind : PhraseKind
  span : Span
deriving DecidableEq

namespace Phrase

/-- The phrase of the single character `ch` at `c`. -/
def single (kind : PhraseKind) (c : Cursor) (ch : Char) : Phrase :=
  ⟨String.singleton ch, kind, ⟨c, c.advance ch⟩⟩

/-- The phrase one character longer. -/
def push (p : Phrase) (ch : Char) : Phrase :=
  { p with text := p.text.push ch, span := { p.span with stop := p.span.stop.advance ch } }

/-- The phrase that holds all of `text`, read from `c`. -/
def read (kind : PhraseKind) (c : Cursor) (text : String) : Phrase :=
  ⟨text, kind, ⟨c, c.advanceOver text.toList⟩⟩

end Phrase

end PhraseTree
