import PhraseTree.Diagnostic
import PhraseTree.Tree.Offer

/-!
# Placing phrases

A `Run` is the state between two characters of a text: the tree, the active instance, the phrase being read, the cursor,
and what was reported and counted so far.

`Run.resolve` places one phrase.  It is offered to the active instance, then to the global rules on its behalf, then to
the instances around it, the nearest first; whoever takes it becomes, or makes, the active instance.  A phrase that has
to be placed and is not is reported as unexpected; an instance that still needs something and is left, or would have had
to be, is reported as unfinished.
-/

namespace PhraseTree

/-- What to report and what to count. -/
structure Settings where
  /-- Report an unfinished instance at the end of the text. -/
  reportUnfinished : Bool := false
  /-- How many instances a diagnostic names at most. -/
  maxTrail : Nat := 64
  collectStats : Bool := true
deriving DecidableEq

/-- How often something happened in a run. -/
structure Counters where
  /-- Phrases offered to the active instance. -/
  offered : Nat := 0
  /-- Phrases taken by a global rule. -/
  globalFallbacks : Nat := 0
  /-- Phrases taken by an instance around the active one. -/
  ancestorFallbacks : Nat := 0
  /-- Instances set up, those given up again included. -/
  created : Nat := 0
  /-- Instances given up. -/
  dropped : Nat := 0
  /-- Diagnostics. -/
  reported : Nat := 0
deriving DecidableEq

/-- The state between two characters. -/
structure Run where
  tree : Tree := .root
  active : NodeId := 0
  /-- The phrase that the next character may lengthen. -/
  buffer? : Option Phrase := none
  cursor : Cursor := .start
  /-- What was reported, the latest first. -/
  reports : List Diagnostic := []
  counters : Counters := {}
deriving DecidableEq

/-! ## asking the instances around the active one -/

/-- The instances that refused a phrase, the nearest first, and the one after them that takes it. -/
structure Climb where
  dropped : Nat
  refused : List NodeId
  taken? : Option (NodeId × Change)

/-- What is left behind by a phrase that neither the active instance nor a global rule takes. -/
structure Leaving where
  /-- The active instance. -/
  origin : Place
  /-- The innermost of the instances that are left, or would have had to be, that still needs something. -/
  unfinished? : Option Place
  /-- All instances that were asked, the innermost first. -/
  asked : List NodeId

namespace Tree

/-- Offers `p` to the given instances in order. -/
def offerInOrder (g : Grammar) (t : Tree) (p : Phrase) : List NodeId → Climb
  | [] => ⟨0, [], none⟩
  | id :: rest =>
    let s := t.offer g p id
    match s.found? with
    | some change => ⟨s.dropped, [], some (id, change)⟩
    | none =>
      let further := t.offerInOrder g p rest
      ⟨s.dropped + further.dropped, id :: further.refused, further.taken?⟩

/-- Offers `p` to at most `steps` instances around `id`, the nearest first. -/
def climbWithin (g : Grammar) (t : Tree) (p : Phrase) : Nat → NodeId → Climb
  | 0, _ => ⟨0, [], none⟩
  | steps + 1, id =>
    match t.parent? id with
    | none => ⟨0, [], none⟩
    | some parent =>
      let s := t.offer g p parent
      match s.found? with
      | some change => ⟨s.dropped, [], some (parent, change)⟩
      | none =>
        let further := t.climbWithin g p steps parent
        ⟨s.dropped + further.dropped, parent :: further.refused, further.taken?⟩

/-- Offers `p` to the instances around `id`, the nearest first.  Those beyond the one that takes it are not looked up. -/
def climb (g : Grammar) (t : Tree) (p : Phrase) (id : NodeId) : Climb := t.climbWithin g p id id

theorem climbWithin_eq (g : Grammar) (t : Tree) (p : Phrase) (steps : Nat) (id : NodeId) :
    t.climbWithin g p steps id = t.offerInOrder g p (t.ancestorsWithin steps id) := by
  induction steps generalizing id with
  | zero => rfl
  | succ steps ih =>
    rw [climbWithin, ancestorsWithin]
    cases t.parent? id with
    | none => rfl
    | some parent => simp only [offerInOrder, ih]

/-- A climb offers the phrase to the ancestors in order. -/
theorem climb_eq (g : Grammar) (t : Tree) (p : Phrase) (id : NodeId) :
    t.climb g p id = t.offerInOrder g p (t.ancestors id) :=
  t.climbWithin_eq g p id id

/-- What the climb from `active` leaves behind. -/
def leaving (g : Grammar) (t : Tree) (active : NodeId) (c : Climb) : Leaving :=
  let left := active :: c.refused
  { origin := t.place g active
    unfinished? := (left.find? (t.needsMore g)).map (t.place g)
    asked := left ++ (c.taken?.map Prod.fst).toList }

end Tree

namespace Run

/-- Adds a diagnostic. -/
def report (r : Run) (d : Diagnostic) : Run :=
  { r with
    reports := d :: r.reports
    counters := { r.counters with reported := r.counters.reported + 1 } }

/-- Counts an offer in which `dropped` instances were given up and `made` are kept. -/
def tally (r : Run) (dropped made : Nat) : Run :=
  { r with
    counters := { r.counters with
      created := r.counters.created + dropped + made
      dropped := r.counters.dropped + dropped } }

/-- Lets the instance `id` take a phrase. -/
def change (r : Run) (id : NodeId) (c : Change) : Run :=
  let after := r.tree.apply id c
  { r with tree := after.1, active := after.2 }

/-- Lets a global rule take a phrase on behalf of the active instance. -/
def adopt (g : Grammar) (r : Run) (rule : RuleId) (growth : Growth) : Run :=
  let after := r.tree.adopt g r.active rule growth
  { r with tree := after.1, active := after.2 }

/-- The first `maxTrail` of the given instances, as places. -/
def trail (g : Grammar) (s : Settings) (t : Tree) (ids : List NodeId) : List Place :=
  (ids.take s.maxTrail).map (t.place g)

/-- Reports `p` as unexpected if it had to be placed and was not `taken`, and then the unfinished instance, if any, once
it is clear that it is left. -/
def reportLeaving (g : Grammar) (s : Settings) (r : Run) (p : Phrase) (must taken : Bool) (l : Leaving) : Run :=
  let trail := trail g s r.tree l.asked
  let r := if must && !taken then r.report ⟨p.span, p.text, .unexpectedPhrase l.origin, trail⟩ else r
  match l.unfinished? with
  | some place => if must || taken then r.report ⟨p.span, p.text, .unfinishedRule place, trail⟩ else r
  | none => r

/-- Places `p`, and tells whether some instance took it.  `must` says that it cannot grow any more. -/
def resolve (g : Grammar) (s : Settings) (r : Run) (p : Phrase) (must : Bool) : Run × Bool :=
  let r := { r with counters := { r.counters with offered := r.counters.offered + 1 } }
  let own := r.tree.offer g p r.active
  match own.found? with
  | some c => ((r.tally own.dropped c.made).change r.active c, true)
  | none =>
    let global := Tree.offerGlobal g p
    match global.found? with
    | some (rule, growth) =>
      let r := { r with counters := { r.counters with globalFallbacks := r.counters.globalFallbacks + 1 } }
      ((r.tally (own.dropped + global.dropped) (growth.depth + 1)).adopt g rule growth, true)
    | none =>
      let climb := r.tree.climb g p r.active
      let leaving := r.tree.leaving g r.active climb
      let dropped := own.dropped + global.dropped + climb.dropped
      match climb.taken? with
      | some (id, c) =>
        let r := { r with counters := { r.counters with ancestorFallbacks := r.counters.ancestorFallbacks + 1 } }
        (((r.tally dropped c.made).change id c).reportLeaving g s p must true leaving, true)
      | none => ((r.tally dropped 0).reportLeaving g s p must false leaving, false)

/-- Whether everything that follows belongs to a text. -/
def inText (r : Run) : Bool := r.tree.inText r.active

end Run

end PhraseTree
