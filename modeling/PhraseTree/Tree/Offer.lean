import PhraseTree.Tree

/-!
# Offering a phrase to an instance

An instance that is offered a phrase first lets its latest entry have it: an unfinished capture or a fork goes on, a
rule choice takes its separator or makes another instance.  Failing that, a later part begins, the required ones in
between excepted.  An unsatisfied fork lets no later part begin.

The answer is a `Change` of that one instance.  `Tree.offer` only looks for it, `Tree.apply` carries it out; so an offer
that is refused cannot leave anything behind.
-/

namespace PhraseTree

/-! ## changes -/

/-- What an instance does with a phrase it takes. -/
inductive Change where
  /-- The latest entry gives way to this one. -/
  | replace (e : Entry)
  /-- A further entry follows, with the new instances below it. -/
  | grow (growth : Growth)
deriving DecidableEq

namespace Growth

/-- The entry that the growth leaves in the instance it starts from, where the first new instance gets number `base`. -/
def entry (base : NodeId) : Growth → Entry
  | .capture c => .capture c
  | .fork f => .fork f
  | .child slot _ growth => .child { slot with node := base, deepest := base + growth.depth }

/-- The new instances, numbered from `base`, below `parent`. -/
def nodes (parent base : NodeId) : Growth → List Node
  | .capture _ | .fork _ => []
  | .child _ rule growth => ⟨rule, some parent, [growth.entry (base + 1)], []⟩ :: growth.nodes base (base + 1)

/-- The instance that takes the phrase: the innermost new one, or `parent` if there is none. -/
def taker (parent base : NodeId) : Growth → NodeId
  | .capture _ | .fork _ => parent
  | .child _ _ growth => base + growth.depth

theorem length_nodes (parent base : NodeId) (growth : Growth) :
    (growth.nodes parent base).length = growth.depth := by
  induction growth generalizing parent base with
  | capture | fork => rfl
  | child slot rule growth ih => simp [nodes, depth, ih]

/-- Either `parent` takes the phrase itself, or the last of the new instances does. -/
theorem taker_eq (parent base : NodeId) (growth : Growth) :
    growth.taker parent base = if growth.depth = 0 then parent else base + (growth.depth - 1) := by
  cases growth <;> simp [taker, depth]

end Growth

namespace Change

/-- How many instances the change makes. -/
def made : Change → Nat
  | .replace _ => 0
  | .grow growth => growth.depth

end Change

/-! ## looking for a change -/

/-- A rule choice whose latest instance is `last` takes its separator where one is due, or makes another instance. -/
def RuleChoice.resume (inside : RuleId → Search Growth) (p : Phrase) (c : RuleChoice RuleId) (last : Child) :
    Search Change :=
  if !last.separated && c.separator? == some p.text then
    .ofOption (some (.replace (.child { last with separated := true })))
  else if (last.separated || last.separatorOptional) && !c.singular then
    (firstOf inside c.candidates).map fun (rule, growth) => .grow (.child (c.slot last.part) rule growth)
  else .fail

/-- The latest entry goes on with `p`. -/
def Part.resume (inside : RuleId → Search Growth) (p : Phrase) : Part RuleId → Entry → Search Change
  | .simple part, .capture c => .ofOption ((part.resume? p c).map fun c => .replace (.capture c))
  | .alternatives a, .fork f => .ofOption ((a.resume? f.part p f).map fun f => .replace (.fork f))
  | .choice c, .child last => c.resume inside p last
  | _, _ => .fail

/-- Whether no later part may begin: the entry is a fork and no branch is satisfied. -/
def Entry.blocks : Entry → Bool
  | .fork f => !f.satisfied
  | .capture _ | .child _ => false

namespace Node

/-- A part from place `i` on begins with `p`. -/
def advance (g : Grammar) (p : Phrase) (n : Node) (i : Nat) : Search Change :=
  (growFrom (g.sprout p) p i ((g.parts n.rule).drop i)).map .grow

/-- The change with which the instance takes `p`. -/
def offer (g : Grammar) (p : Phrase) (n : Node) : Search Change :=
  match n.last? with
  | none => n.advance g p 0
  | some last =>
    if last.finished then n.advance g p (last.part + 1)
    else
      match (g.parts n.rule)[last.part]? with
      | none => .fail
      | some part =>
        part.resume (g.sprout p) p last <|> if last.blocks then .fail else n.advance g p (last.part + 1)

end Node

namespace Tree

/-- The change with which the instance `id` takes `p`. -/
def offer (g : Grammar) (t : Tree) (p : Phrase) (id : NodeId) : Search Change :=
  match t.node? id with
  | some n => n.offer g p
  | none => .fail

/-- The global rule that takes `p`, and how. -/
def offerGlobal (g : Grammar) (p : Phrase) : Search (RuleId × Growth) := firstOf (g.sprout p) g.global.candidates

/-! ## carrying a change out -/

/-- The tree with the growth below `id`; `put` puts down the entry. -/
def extend (t : Tree) (id : NodeId) (growth : Growth) (put : Node → Node) : Tree :=
  let line := growth.nodes id t.size
  ⟨t.nodes.modify id put ++ line.toArray⟩

/-- The tree after the change of `id`, and the instance that took the phrase. -/
def apply (t : Tree) (id : NodeId) : Change → Tree × NodeId
  | .replace e => (⟨t.nodes.modify id (·.replaceLast e)⟩, id)
  | .grow growth =>
    let taker := growth.taker id t.size
    let e := growth.entry t.size
    (t.extend id growth (·.push e), taker)

/-- The tree with a new instance of a global rule on behalf of `id`, and the instance that took the phrase. -/
def adopt (g : Grammar) (t : Tree) (id : NodeId) (rule : RuleId) (growth : Growth) : Tree × NodeId :=
  let line := Growth.child (g.global.slot 0) rule growth
  let deepest := line.taker id t.size
  let c : Child := { g.global.slot 0 with node := t.size, deepest }
  (t.extend id line (·.pushGlobal c), deepest)

/-- What the latest entry of `id` gives back to be read again. -/
def toReread? (t : Tree) (id : NodeId) : Option (String × Cursor) :=
  ((t.node? id).bind (·.last?)).bind (·.toReread?)

/-- The tree in which the latest entry of `id` has nothing left to be read again. -/
def settle (t : Tree) (id : NodeId) : Tree :=
  ⟨t.nodes.modify id fun n => { n with entries := n.entries.modifyHead Entry.settled }⟩

/-! ## sizes -/

@[simp] theorem size_extend (t : Tree) (id : NodeId) (growth : Growth) (put : Node → Node) :
    (t.extend id growth put).size = t.size + growth.depth := by
  simp [extend, size, Growth.length_nodes]

/-- A change adds as many instances as it makes. -/
@[simp] theorem size_apply (t : Tree) (id : NodeId) (c : Change) : (t.apply id c).1.size = t.size + c.made := by
  cases c with
  | replace e => simp [apply, size, Change.made]
  | grow growth => simp [apply, Change.made]

@[simp] theorem size_settle (t : Tree) (id : NodeId) : (t.settle id).size = t.size := by
  simp [settle, size]

end Tree

end PhraseTree
