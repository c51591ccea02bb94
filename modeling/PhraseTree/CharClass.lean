import PhraseTree.Phrase
import PhraseTree.Text.Quoted

/-!
# Character classes

Which characters make words, which make numbers, and which are read at all.  Words and numbers each have a set of
characters that start them and may have another set of characters that continue them; without the second set the first
serves for both.

* `CharClasses.startingKind c` is the kind of phrase that `c` opens, if it opens one;
* `CharClasses.continues k c` tells whether `c` lengthens a phrase of kind `k`.
-/

namespace PhraseTree

/-! ## ranges and sets -/

/-- The characters from `first` to `last`, both included. -/
structure CharRange where
  first : Char
  last : Char
deriving DecidableEq

namespace CharRange

/-- The range of one character. -/
def single (c : Char) : CharRange := ⟨c, c⟩

/-- Whether `c` lies between the ends. -/
def contains (r : CharRange) (c : Char) : Bool := decide (r.first ≤ c) && decide (c ≤ r.last)

/-- A range whose ends are in order. -/
def isOrdered (r : CharRange) : Bool := decide (r.first ≤ r.last)

/-- `'a'` for one character, `'a'..='z'` for more. -/
def render (r : CharRange) : String :=
  if r.first = r.last then Text.quotedChar r.first
  else Text.quotedChar r.first ++ "..=" ++ Text.quotedChar r.last

end CharRange

/-- A set of characters, given by ranges in the order in which they were declared. -/
structure CharSet where
  ranges : List CharRange
deriving DecidableEq

namespace CharSet

/-- Whether some range holds `c`. -/
def contains (s : CharSet) (c : Char) : Bool := s.ranges.any (·.contains c)

/-- Whether no range was declared. -/
def isEmpty (s : CharSet) : Bool := s.ranges.isEmpty

/-- The set with further ranges at the end. -/
def extend (s : CharSet) (more : List CharRange) : CharSet := ⟨s.ranges ++ more⟩

/-- The set of no character. -/
def empty : CharSet := ⟨[]⟩

/-- Letters of the Latin alphabet and the low line. -/
def letters : CharSet := ⟨[⟨'A', 'Z'⟩, ⟨'a', 'z'⟩, .single '_']⟩

/-- The ASCII digits. -/
def digits : CharSet := ⟨[⟨'0', '9'⟩]⟩

/-- The printable ASCII characters other than the space. -/
def printable : CharSet := ⟨[⟨'!', '~'⟩]⟩

end CharSet

/-! ## classes -/

/-- The five sets that decide how characters make phrases. -/
structure CharClasses where
  wordStart : CharSet := .letters
  wordContinue? : Option CharSet := none
  numberStart : CharSet := .digits
  numberContinue? : Option CharSet := none
  valid : CharSet := .printable
deriving DecidableEq

namespace CharClasses

/-- What may follow inside a word. -/
def wordContinue (k : CharClasses) : CharSet := k.wordContinue?.getD k.wordStart

/-- What may follow inside a number. -/
def numberContinue (k : CharClasses) : CharSet := k.numberContinue?.getD k.numberStart

/-- The sets that were declared, in the order in which they are checked. -/
def declared (k : CharClasses) : List CharSet :=
  [k.wordStart] ++ k.wordContinue?.toList ++ [k.numberStart] ++ k.numberContinue?.toList ++ [k.valid]

/-- Every declared range, in order. -/
def ranges (k : CharClasses) : List CharRange := k.declared.flatMap CharSet.ranges

/-- Whether `c` opens a word. -/
def startsWord (k : CharClasses) (c : Char) : Bool := k.wordStart.contains c

/-- Whether `c` is among those that follow inside a word. -/
def continuesWord (k : CharClasses) (c : Char) : Bool := k.wordContinue.contains c

/-- Whether `c` opens a number. -/
def startsNumber (k : CharClasses) (c : Char) : Bool := k.numberStart.contains c

/-- Whether `c` may follow inside a number. -/
def continuesNumber (k : CharClasses) (c : Char) : Bool := k.numberContinue.contains c

/-- A valid character that starts neither a word nor a number. -/
def isOther (k : CharClasses) (c : Char) : Bool := !k.startsWord c && !k.startsNumber c && k.valid.contains c

/-- The kind of phrase that `c` opens: a word before a number before a run of other characters. -/
def startingKind (k : CharClasses) (c : Char) : Option PhraseKind :=
  if k.startsWord c then some .word
  else if k.startsNumber c then some .number
  else if k.valid.contains c then some .chars
  else none

/-- Whether `c` lengthens a phrase of the given kind.  A word also takes the characters that start numbers. -/
def continues (k : CharClasses) : PhraseKind → Char → Bool
  | .word, c => k.continuesWord c || k.startsNumber c
  | .number, c => k.continuesNumber c
  | .chars, c => k.isOther c

end CharClasses

end PhraseTree
