/-!
# Tables of character codes

A Unicode property is kept as an ascending list of closed ranges of code points; `inRanges` looks a character up.
-/

namespace PhraseTree.Text

/-- Whether the code of `c` lies in one of the closed ranges. -/
def inRanges (ranges : List (Nat × Nat)) (c : Char) : Bool :=
  ranges.any fun r => decide (r.1 ≤ c.toNat) && decide (c.toNat ≤ r.2)

/-- Every range is closed from below and lies after the one before it. -/
def ascending : List (Nat × Nat) → Bool
  | [] => true
  | [r] => decide (r.1 ≤ r.2)
  | r :: s :: rest => decide (r.1 ≤ r.2) && decide (r.2 < s.1) && ascending (s :: rest)

/-- How many codes the ranges hold. -/
def countCodes (ranges : List (Nat × Nat)) : Nat := ranges.foldl (fun n r => n + (r.2 + 1 - r.1)) 0

end PhraseTree.Text
