import PhraseTree.Text.Hidden

/-!
# Quoted text

A text or a character between quotes.  The backslash, the quote itself, NUL, tab, carriage return and line feed are
written with a backslash; a character without a shape, or one that would attach to its neighbour, is written by its
code in hexadecimal between braces; every other character stands for itself.
-/

namespace PhraseTree.Text

/-- The code of `c`, in lower-case hexadecimal without leading zeros, between braces. -/
def codeEscape (c : Char) : List Char :=
  ['\\', 'u', '\x7b'] ++ Nat.toDigits 16 c.toNat ++ ['\x7d']

/-- How `c` is written between quotes of the kind `quote`. -/
def escapeChar (quote c : Char) : List Char :=
  if c = '\x00' then ['\\', '0']
  else if c = '\t' then ['\\', 't']
  else if c = '\r' then ['\\', 'r']
  else if c = '\n' then ['\\', 'n']
  else if c = '\\' then ['\\', '\\']
  else if c = quote then ['\\', quote]
  else if isExtending c || isHidden c then codeEscape c
  else [c]

/-- A text between double quotes. -/
def quoted (s : String) : String :=
  String.ofList (['"'] ++ s.toList.flatMap (escapeChar '"') ++ ['"'])

/-- A character between single quotes. -/
def quotedChar (c : Char) : String :=
  String.ofList (['\''] ++ escapeChar '\'' c ++ ['\''])

example : quoted "a\"b'\n" = "\"a\\\"b'\\n\"" := by decide +kernel
example : quotedChar '\'' = "'\\''" := by decide +kernel
example : quoted "\u0301\u200b" = "\"\\u\x7b301\x7d\\u\x7b200b\x7d\"" := by decide +kernel

end PhraseTree.Text
