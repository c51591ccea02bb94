import PhraseTree.Capture

/-!
# Forks

A `Fork` is what alternatives have taken so far: the branches that took every phrase up to now, in the order in which
their paths are declared.  Each branch goes on by itself; a branch that does not take a phrase is dropped, and the
fork fails when none is left.
-/

namespace PhraseTree

/-! ## branches -/

/-- One path and what it has taken, the latest capture first. -/
structure Branch where
  path : Nat
  captures : List Capture
deriving DecidableEq

namespace Branch

/-- The latest capture. -/
def last? (b : Branch) : Option Capture := b.captures.head?

/-- Whether the latest capture is an open text. -/
def inText (b : Branch) : Bool := b.last?.any (·.inText)

/-- Puts a capture down: in place of the latest one if it is of the same part, after it otherwise. -/
def record (captures : List Capture) (c : Capture) : List Capture :=
  match captures with
  | [] => [c]
  | last :: earlier => if last.part = c.part then c :: earlier else c :: last :: earlier

/-- Whether all parts after the latest capture may be left out. -/
def isSatisfied (b : Branch) (paths : List Path) : Bool :=
  match paths[b.path]? with
  | some path => restOptional SimplePart.isOptional path ((b.last?.map (·.part + 1)).getD 0)
  | none => false

/-- The branch after `p`. -/
def take? (b : Branch) (paths : List Path) (p : Phrase) : Option Branch :=
  match paths[b.path]? with
  | some path => (path.take? p b.last?).map fun c => { b with captures := record b.captures c }
  | none => none

/-- What the latest capture gives back to be read again. -/
def toReread? (b : Branch) : Option (String × Cursor) := b.last?.bind (·.toReread?)

/-- The branch with nothing left to be read again. -/
def settled (b : Branch) : Branch :=
  match b.captures with
  | [] => b
  | last :: earlier => { b with captures := last.settled :: earlier }

end Branch

/-! ## forks -/

/-- What alternatives have taken. -/
structure Fork where
  /-- The place of the part in its rule. -/
  part : Nat
  branches : List Branch
  /-- Some branch has nothing required left. -/
  satisfied : Bool
deriving DecidableEq

namespace Fork

/-- The fork of the given branches, if there are any. -/
def of? (a : Alternatives) (i : Nat) (branches : List Branch) : Option Fork :=
  if branches.isEmpty then none else some ⟨i, branches, branches.any (·.isSatisfied a.paths)⟩

/-- Whether some branch is in an open text. -/
def inText (f : Fork) : Bool := f.branches.any (·.inText)

/-- The stretch taken by the first branch. -/
def span? (f : Fork) : Option Span := do
  let b ← f.branches.head?
  let first ← b.captures.getLast?
  let last ← b.captures.head?
  return first.span.hull last.span

/-- What is to be read again: the first branch that gives something back decides. -/
def toReread? (f : Fork) : Option (String × Cursor) := f.branches.findSome? (·.toReread?)

/-- The fork with nothing left to be read again. -/
def settled (f : Fork) : Fork := { f with branches := f.branches.map (·.settled) }

end Fork

namespace Alternatives

/-- The branches that can begin with `p`. -/
def begin? (a : Alternatives) (i : Nat) (p : Phrase) : Option Fork :=
  Fork.of? a i <| a.paths.zipIdx.filterMap fun (path, k) => (path.take? p none).map fun c => ⟨k, [c]⟩

/-- The branches that go on with `p`. -/
def resume? (a : Alternatives) (i : Nat) (p : Phrase) (f : Fork) : Option Fork :=
  Fork.of? a i <| f.branches.filterMap (·.take? a.paths p)

/-- The fork after `p`: led on where there is one, begun otherwise. -/
def take? (a : Alternatives) (i : Nat) (p : Phrase) : Option Fork → Option Fork
  | none => a.begin? i p
  | some f => a.resume? i p f

end Alternatives

end PhraseTree
