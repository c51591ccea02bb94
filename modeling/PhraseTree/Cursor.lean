/-!
# Cursors and spans

A `Cursor` is a place between two characters, given by line and column, both counted from one.  Both counts are 32-bit
words that stop at their largest value, so a cursor over an endless line stays where it is.  A `Span` is the stretch
between two cursors.

* `Cursor.advance` moves over one character, `Cursor.advanceOver` over a text;
* cursors are ordered by line first and by column second;
* `Span.hull` is the smallest span that holds two given ones.
-/

namespace PhraseTree

/-! ## cursors -/

/-- The next count, which stays at the largest word. -/
def countUp (n : UInt32) : UInt32 := if n = 4294967295 then n else n + 1

/-- A place in a text. -/
structure Cursor where
  line : UInt32
  column : UInt32
deriving DecidableEq

namespace Cursor

/-- The place before the first character. -/
def start : Cursor := ⟨1, 1⟩

/-- A line feed opens the next line; any other character takes one column. -/
def advance (c : Cursor) (ch : Char) : Cursor :=
  if ch = '\n' then ⟨countUp c.line, 1⟩ else ⟨c.line, countUp c.column⟩

/-- The place after `text`, read from `c`. -/
def advanceOver (c : Cursor) (text : List Char) : Cursor := text.foldl advance c

@[simp] theorem advanceOver_nil (c : Cursor) : c.advanceOver [] = c := rfl

@[simp] theorem advanceOver_cons (c : Cursor) (ch : Char) (text : List Char) :
    c.advanceOver (ch :: text) = (c.advance ch).advanceOver text := rfl

@[simp] theorem advanceOver_append (c : Cursor) (s t : List Char) :
    c.advanceOver (s ++ t) = (c.advanceOver s).advanceOver t := by
  simp [advanceOver, List.foldl_append]

/-- Lines decide first, columns within one line. -/
instance : Ord Cursor := ⟨fun a b => (compare a.line b.line).then (compare a.column b.column)⟩

instance : LE Cursor := ⟨fun a b => a.line < b.line ∨ (a.line = b.line ∧ a.column ≤ b.column)⟩

theorem le_def (a b : Cursor) : a ≤ b ↔ a.line < b.line ∨ (a.line = b.line ∧ a.column ≤ b.column) := Iff.rfl

instance (a b : Cursor) : Decidable (a ≤ b) := decidable_of_iff' _ (le_def a b)

instance : Min Cursor := ⟨fun a b => if a ≤ b then a else b⟩

instance : Max Cursor := ⟨fun a b => if a ≤ b then b else a⟩

/-- `line:column`. -/
def render (c : Cursor) : String := toString c.line.toNat ++ ":" ++ toString c.column.toNat

end Cursor

/-! ## spans -/

/-- The stretch from `start` up to `stop`, the place after its last character. -/
structure Span where
  start : Cursor
  stop : Cursor
deriving DecidableEq

namespace Span

/-- The span at `c` that holds no character. -/
def emptyAt (c : Cursor) : Span := ⟨c, c⟩

/-- The smallest span that holds both. -/
def hull (a b : Span) : Span := ⟨min a.start b.start, max a.stop b.stop⟩

/-- `start-stop`. -/
def render (s : Span) : String := s.start.render ++ "-" ++ s.stop.render

end Span

end PhraseTree
