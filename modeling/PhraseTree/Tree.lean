import PhraseTree.Growth
import PhraseTree.Place

/-!
# Trees of rule instances

A `Tree` holds every instance of a rule that took part of the text.  Instances are numbered in the order in which they
were made; number `0` is the top level.  An instance records what its parts took, the latest first, and the instances of
global rules that were made on its behalf.

* `Tree.ancestors` lists the instances around an instance, the nearest first;
* `Tree.span?` is the stretch an instance covers, `Tree.place` the part it filled last;
* `Tree.needsMore` tells whether it may not be left yet.
-/

namespace PhraseTree

/-- The number of an instance. -/
abbrev NodeId := Nat

/-- An instance that fills a slot of another. -/
structure Child extends Slot where
  node : NodeId
  /-- The innermost of the instances that were made together with it. -/
  deepest : NodeId
deriving DecidableEq

/-- What one part of an instance has taken. -/
inductive Entry where
  | capture (c : Capture)
  | child (c : Child)
  | fork (f : Fork)
deriving DecidableEq

namespace Entry

/-- The place of the part in its rule. -/
def part : Entry → Nat
  | .capture c => c.part
  | .child c => c.part
  | .fork f => f.part

/-- Whether the part takes nothing more.  Only captures are ever finished. -/
def finished : Entry → Bool
  | .capture c => c.finished
  | .child _ | .fork _ => false

/-- Whether everything that follows belongs to this part. -/
def inText : Entry → Bool
  | .capture c => c.inText
  | .fork f => f.inText
  | .child _ => false

/-- The values of a capture. -/
def values : Entry → List String
  | .capture c => c.values
  | .child _ | .fork _ => []

/-- The stretch taken; that of a child is its own. -/
def span? : Entry → Option Span
  | .capture c => some c.span
  | .fork f => f.span?
  | .child _ => none

/-- The child, if the entry is one. -/
def child? : Entry → Option Child
  | .child c => some c
  | .capture _ | .fork _ => none

/-- What is to be read again. -/
def toReread? : Entry → Option (String × Cursor)
  | .capture c => c.toReread?
  | .fork f => f.toReread?
  | .child _ => none

/-- The entry with nothing left to be read again. -/
def settled : Entry → Entry
  | .capture c => .capture c.settled
  | .fork f => .fork f.settled
  | .child c => .child c

end Entry

/-! ## instances -/

/-- One instance of a rule. -/
structure Node where
  rule : RuleId
  parent? : Option NodeId
  /-- What its parts took, the latest first. -/
  entries : List Entry
  /-- Instances of global rules, the latest first. -/
  globals : List Child
deriving DecidableEq

namespace Node

/-- A new instance without entries. -/
def fresh (rule : RuleId) (parent? : Option NodeId) : Node := ⟨rule, parent?, [], []⟩

/-- The latest entry. -/
def last? (n : Node) : Option Entry := n.entries.head?

/-- What its parts took, in the order of the text. -/
def inOrder (n : Node) : List Entry := n.entries.reverse

/-- Puts `e` after the latest entry. -/
def push (n : Node) (e : Entry) : Node := { n with entries := e :: n.entries }

/-- Puts `e` in place of the latest entry. -/
def replaceLast (n : Node) (e : Entry) : Node := { n with entries := e :: n.entries.tail }

/-- Puts down an instance of a global rule. -/
def pushGlobal (n : Node) (c : Child) : Node := { n with globals := c :: n.globals }

/-- Whether the latest entry is an open text. -/
def inText (n : Node) : Bool := n.last?.any (·.inText)

/-- The children in the order of their entries, then those of global rules. -/
def children (n : Node) : List NodeId :=
  (n.inOrder.filterMap Entry.child? ++ n.globals.reverse).map Child.node

/-- The place of the part after the latest entry. -/
def nextPart (n : Node) : Nat :=
  match n.last? with
  | some e => e.part + 1
  | none => 0

/-- Whether a phrase is still required: some branch of the latest fork, or a part after the latest entry. -/
def needsMore (g : Grammar) (n : Node) : Bool :=
  match n.last? with
  | some (.fork f) => !f.satisfied || !restOptional Part.isOptional (g.parts n.rule) n.nextPart
  | _ => !restOptional Part.isOptional (g.parts n.rule) n.nextPart

/-- The rule and the part of the latest entry, or the first part. -/
def place (g : Grammar) (n : Node) : Place :=
  ⟨g.name n.rule, UInt64.ofNat ((n.last?.map Entry.part).getD 0)⟩

end Node

/-! ## trees -/

/-- The instances of a text. -/
structure Tree where
  nodes : Array Node
deriving DecidableEq

namespace Tree

/-- The top level alone, with nothing taken. -/
def root : Tree := ⟨#[.fresh Grammar.topLevel none]⟩

/-- How many instances there are. -/
def size (t : Tree) : Nat := t.nodes.size

/-- The instance of that number. -/
def node? (t : Tree) (id : NodeId) : Option Node := t.nodes[id]?

/-- The instance around `id`. -/
def parent? (t : Tree) (id : NodeId) : Option NodeId := (t.node? id).bind (·.parent?)

/-- At most `steps` instances around `id`, the nearest first. -/
def ancestorsWithin (t : Tree) : Nat → NodeId → List NodeId
  | 0, _ => []
  | steps + 1, id =>
    match t.parent? id with
    | none => []
    | some parent => parent :: t.ancestorsWithin steps parent

/-- The instances around `id`, the nearest first.  A parent is made before its children, so `id` steps are enough. -/
def ancestors (t : Tree) (id : NodeId) : List NodeId := t.ancestorsWithin id id

/-- `id` and the instances around it. -/
def chain (t : Tree) (id : NodeId) : List NodeId := id :: t.ancestors id

/-- Follows the entry chosen by `pick` down to one that has a span of its own. -/
def spanWithin (t : Tree) (pick : Node → Option Entry) : Nat → NodeId → Option Span
  | 0, _ => none
  | steps + 1, id =>
    match (t.node? id).bind pick with
    | none => none
    | some (.child c) => t.spanWithin pick steps c.node
    | some e => e.span?

/-- Where the first entry starts. -/
def start? (t : Tree) (id : NodeId) : Option Cursor := (t.spanWithin (·.entries.getLast?) t.size id).map (·.start)

/-- Where the latest entry ends. -/
def stop? (t : Tree) (id : NodeId) : Option Cursor := (t.spanWithin (·.last?) t.size id).map (·.stop)

/-- The stretch covered by an instance. -/
def span? (t : Tree) (id : NodeId) : Option Span := do
  let start ← t.start? id
  let stop ← t.stop? id
  return ⟨start, stop⟩

/-- Whether the latest entry of an instance is an open text. -/
def inText (t : Tree) (id : NodeId) : Bool := (t.node? id).any (·.inText)

/-- Whether an instance may not be left yet. -/
def needsMore (g : Grammar) (t : Tree) (id : NodeId) : Bool := (t.node? id).any (·.needsMore g)

/-- The rule of an instance and the part it filled last. -/
def place (g : Grammar) (t : Tree) (id : NodeId) : Place :=
  match t.node? id with
  | some n => n.place g
  | none => ⟨"", 0⟩

/-- The children of an instance. -/
def children (t : Tree) (id : NodeId) : List NodeId :=
  match t.node? id with
  | some n => n.children
  | none => []

end Tree

end PhraseTree
