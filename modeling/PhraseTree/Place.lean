/-!
# Places in a grammar

A report names a rule and the latest part that an instance of it had filled.  The part is a 64-bit word: places are
also read back from stored reports.
-/

namespace PhraseTree

/-- A part of a rule. -/
structure Place where
  rule : String
  part : UInt64
deriving DecidableEq

/-- `Rule[part]`. -/
def Place.render (p : Place) : String := p.rule ++ "[" ++ toString p.part.toNat ++ "]"

end PhraseTree
