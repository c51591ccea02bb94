import PhraseTree.Text.CodeRange

/-!
# White space

The Unicode property `White_Space`: the characters that separate phrases and are dropped without a report.
-/

namespace PhraseTree.Text

/-- The 25 code points with the property `White_Space`. -/
def blankRanges : List (Nat × Nat) :=
  [(0x9, 0xD), (0x20, 0x20), (0x85, 0x85), (0xA0, 0xA0), (0x1680, 0x1680), (0x2000, 0x200A), (0x2028, 0x2029),
   (0x202F, 0x202F), (0x205F, 0x205F), (0x3000, 0x3000)]

/-- Whether `c` is white space. -/
def isBlank (c : Char) : Bool := inRanges blankRanges c

example : ascending blankRanges = true ∧ countCodes blankRanges = 25 := by decide

end PhraseTree.Text
