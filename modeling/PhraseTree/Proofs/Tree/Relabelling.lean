import PhraseTree.Proofs.Grammar.Reordering
import PhraseTree.Proofs.Tree.Nodes

/-!
# Trees under other rule numbers

Where `g'` is `g` with its rules numbered by `f` (`Grammar.Relabels f g g'`), a search with `g'` finds what one with `g`
finds, with every rule numbered by `f`, and gives up as many instances.  Candidates are tried in the order of their lists,
which is the same, so nothing depends on the numbers.

* `Grammar.Relabels.sprout`, `Grammar.Relabels.offer`: what a new instance and one of the tree answer;
* `Grammar.Relabels.offerInOrder`, `Grammar.Relabels.leaving`: what a climb comes to;
* `Tree.relabelled_apply`, `Tree.relabelled_adopt`, `Tree.relabelled_settle`: what becomes of the tree.
-/

namespace PhraseTree

/-! ### Other numbers in trees -/

/-- The growth with its rules numbered by `f`. -/
def Growth.relabelled (f : RuleId → RuleId) : Growth → Growth
  | .capture c => .capture c
  | .fork x => .fork x
  | .child slot rule growth => .child slot (f rule) (growth.relabelled f)

/-- The change with its rules numbered by `f`. -/
def Change.relabelled (f : RuleId → RuleId) : Change → Change
  | .replace e => .replace e
  | .grow growth => .grow (growth.relabelled f)

/-- The instance with its rule numbered by `f`. -/
def Node.relabelled (f : RuleId → RuleId) (n : Node) : Node := { n with rule := f n.rule }

/-- The tree with its rules numbered by `f`. -/
def Tree.relabelled (f : RuleId → RuleId) (t : Tree) : Tree := ⟨t.nodes.map (Node.relabelled f)⟩

/-- The climb with its rules numbered by `f`. -/
def Climb.relabelled (f : RuleId → RuleId) (k : Climb) : Climb :=
  { k with taken? := k.taken?.map (Prod.map id (Change.relabelled f)) }

variable {f : RuleId → RuleId} {g g' : Grammar} {p : Phrase}

namespace Growth

variable {growth : Growth}

@[simp] theorem depth_relabelled : (growth.relabelled f).depth = growth.depth := by
  induction growth with
  | capture | fork => rfl
  | child slot rule growth ih => exact congrArg (· + 1) ih

@[simp] theorem entry_relabelled (base : NodeId) : (growth.relabelled f).entry base = growth.entry base := by
  cases growth with
  | capture | fork => rfl
  | child => simp only [relabelled, entry, depth_relabelled]

@[simp] theorem taker_relabelled (parent base : NodeId) :
    (growth.relabelled f).taker parent base = growth.taker parent base := by
  rw [taker_eq, taker_eq, depth_relabelled]

theorem nodes_relabelled (parent base : NodeId) :
    (growth.relabelled f).nodes parent base = (growth.nodes parent base).map (Node.relabelled f) := by
  induction growth generalizing parent base with
  | capture | fork => rfl
  | child slot rule growth ih => simp only [relabelled, nodes, entry_relabelled, ih, List.map_cons, Node.relabelled]

end Growth

namespace Node

variable {n : Node}

@[simp] theorem rule_relabelled : (n.relabelled f).rule = f n.rule := rfl

@[simp] theorem last?_relabelled : (n.relabelled f).last? = n.last? := rfl

@[simp] theorem nextPart_relabelled : (n.relabelled f).nextPart = n.nextPart := rfl

end Node

@[simp] theorem Change.made_relabelled (c : Change) : (c.relabelled f).made = c.made := by
  cases c with
  | replace => rfl
  | grow => exact Growth.depth_relabelled

/-! ### Searching -/

section Searches

variable {inside inside' : RuleId → Search Growth}
  (h : ∀ rule, inside' (f rule) = (inside rule).map (Growth.relabelled f))
include h

theorem firstOf_relabelled (rules : List RuleId) :
    firstOf inside' (rules.map f) = (firstOf inside rules).map (Prod.map f (Growth.relabelled f)) := by
  induction rules with
  | nil => rfl
  | cons rule rest ih =>
    rw [List.map_cons, firstOf, firstOf, Search.map_orElse, ih, h, Search.map_inInstance, Search.map_map, Search.map_map]
    rfl

theorem growAt_relabelled (i : Nat) (part : Part RuleId) :
    growAt inside' p i (part.relabelled f) = (growAt inside p i part).map (Growth.relabelled f) := by
  cases part with
  | simple s =>
    rw [growAt, Search.map_ofOption, Option.map_map]
    rfl
  | alternatives a =>
    rw [growAt, Search.map_ofOption, Option.map_map]
    rfl
  | choice c =>
    show (firstOf inside' (c.candidates.map f)).map _ = ((firstOf inside c.candidates).map _).map _
    rw [firstOf_relabelled h, Search.map_map, Search.map_map]
    rfl

theorem growFrom_relabelled (i : Nat) (parts : List (Part RuleId)) :
    growFrom inside' p i (parts.map (Part.relabelled f)) = (growFrom inside p i parts).map (Growth.relabelled f) := by
  induction parts generalizing i with
  | nil => rfl
  | cons part rest ih =>
    rw [List.map_cons, growFrom, growFrom, Search.map_orElse, growAt_relabelled h, ih, Part.isOptional_relabelled]
    cases part.isOptional <;> rfl

theorem RuleChoice.resume_relabelled (c : RuleChoice RuleId) (last : Child) :
    (c.relabelled f).resume inside' p last = (c.resume inside p last).map (Change.relabelled f) := by
  unfold resume
  show (if (!last.separated && c.separator? == some p.text) = true then _
    else if ((last.separated || last.separatorOptional) && !c.singular) = true then
      (firstOf inside' (c.candidates.map f)).map _ else _) = _
  rw [firstOf_relabelled h]
  split
  · rfl
  · split
    · rw [Search.map_map, Search.map_map]
      rfl
    · rfl

theorem Part.resume_relabelled (part : Part RuleId) (e : Entry) :
    (part.relabelled f).resume inside' p e = (part.resume inside p e).map (Change.relabelled f) := by
  cases part with
  | simple s =>
    cases e with
    | capture c =>
      rw [resume, Search.map_ofOption, Option.map_map]
      rfl
    | child | fork => rfl
  | alternatives a =>
    cases e with
    | fork x =>
      rw [resume, Search.map_ofOption, Option.map_map]
      rfl
    | capture | child => rfl
  | choice c =>
    cases e with
    | child last => exact RuleChoice.resume_relabelled h c last
    | capture | fork => rfl

end Searches

namespace Grammar.Relabels

variable (h : g.Relabels f g')
include h

theorem instantiate (p : Phrase) (levels : Nat) (rule : RuleId) :
    PhraseTree.instantiate g' p levels (f rule) = (PhraseTree.instantiate g p levels rule).map (Growth.relabelled f) := by
  induction levels generalizing rule with
  | zero => rfl
  | succ levels ih => rw [PhraseTree.instantiate, PhraseTree.instantiate, h.parts, growFrom_relabelled ih]

/-- **A new instance answers alike.** -/
theorem sprout (p : Phrase) (rule : RuleId) : g'.sprout p (f rule) = (g.sprout p rule).map (Growth.relabelled f) := by
  rw [Grammar.sprout, Grammar.sprout, h.size, h.instantiate]

theorem offerGlobal (p : Phrase) :
    Tree.offerGlobal g' p = (Tree.offerGlobal g p).map (Prod.map f (Growth.relabelled f)) := by
  rw [Tree.offerGlobal, Tree.offerGlobal, h.global]
  exact firstOf_relabelled (h.sprout p) g.global.candidates

/-! ### Instances -/

theorem advance (p : Phrase) (n : Node) (i : Nat) :
    (n.relabelled f).advance g' p i = (n.advance g p i).map (Change.relabelled f) := by
  rw [Node.advance, Node.advance, Node.rule_relabelled, h.parts, ← List.map_drop, growFrom_relabelled (h.sprout p),
    Search.map_map, Search.map_map]
  rfl

/-- **An instance answers alike.** -/
theorem offerNode (p : Phrase) (n : Node) : (n.relabelled f).offer g' p = (n.offer g p).map (Change.relabelled f) := by
  rw [Node.offer, Node.offer, Node.last?_relabelled]
  cases n.last? with
  | none => exact h.advance p n 0
  | some last =>
    dsimp only
    split
    · exact h.advance p n _
    · rw [Node.rule_relabelled, h.parts, List.getElem?_map]
      cases (g.parts n.rule)[last.part]? with
      | none => rfl
      | some part =>
        dsimp only [Option.map_some]
        rw [Search.map_orElse, Part.resume_relabelled (h.sprout p)]
        split
        · rfl
        · rw [h.advance]

theorem needsMoreNode (n : Node) : (n.relabelled f).needsMore g' = n.needsMore g := by
  have hrest : restOptional Part.isOptional (g'.parts (n.relabelled f).rule) (n.relabelled f).nextPart =
      restOptional Part.isOptional (g.parts n.rule) n.nextPart := by
    rw [Node.rule_relabelled, Node.nextPart_relabelled, h.parts, Part.restOptional_relabelled]
  rw [Node.needsMore, Node.needsMore, Node.last?_relabelled, hrest]

theorem placeNode (n : Node) : (n.relabelled f).place g' = n.place g := by
  rw [Node.place, Node.place, Node.rule_relabelled, Node.last?_relabelled, h.name]

end Grammar.Relabels

/-! ### Trees -/

namespace Tree

variable (t : Tree) (id : NodeId)

@[simp] theorem size_relabelled : (t.relabelled f).size = t.size := Array.size_map

theorem node?_relabelled : (t.relabelled f).node? id = (t.node? id).map (Node.relabelled f) := Array.getElem?_map

@[simp] theorem parent?_relabelled : (t.relabelled f).parent? id = t.parent? id := by
  rw [parent?, parent?, node?_relabelled, Option.bind_map]
  rfl

theorem ancestorsWithin_relabelled (steps : Nat) :
    (t.relabelled f).ancestorsWithin steps id = t.ancestorsWithin steps id := by
  induction steps generalizing id with
  | zero => rfl
  | succ steps ih =>
    rw [ancestorsWithin, ancestorsWithin, parent?_relabelled]
    cases t.parent? id with
    | none => rfl
    | some parent => exact congrArg (parent :: ·) (ih parent)

@[simp] theorem ancestors_relabelled : (t.relabelled f).ancestors id = t.ancestors id :=
  t.ancestorsWithin_relabelled id id

@[simp] theorem chain_relabelled : (t.relabelled f).chain id = t.chain id := by
  rw [chain, chain, ancestors_relabelled]

@[simp] theorem inText_relabelled : (t.relabelled f).inText id = t.inText id := by
  rw [inText, inText, node?_relabelled, Option.any_map]
  rfl

@[simp] theorem toReread?_relabelled : (t.relabelled f).toReread? id = t.toReread? id := by
  rw [toReread?, toReread?, node?_relabelled, Option.bind_map]
  rfl

theorem spanWithin_relabelled {pick : Node → Option Entry} (hpick : ∀ n : Node, pick (n.relabelled f) = pick n)
    (steps : Nat) : (t.relabelled f).spanWithin pick steps id = t.spanWithin pick steps id := by
  induction steps generalizing id with
  | zero => rfl
  | succ steps ih =>
    have hsame : ((t.relabelled f).node? id).bind pick = (t.node? id).bind pick := by
      rw [node?_relabelled, Option.bind_map]
      exact congrArg (Option.bind (t.node? id)) (funext hpick)
    rw [spanWithin, spanWithin, hsame]
    split
    · rfl
    · exact ih _
    · rfl

@[simp] theorem span?_relabelled : (t.relabelled f).span? id = t.span? id := by
  rw [span?, span?, start?, start?, stop?, stop?, size_relabelled, t.spanWithin_relabelled id fun _ => rfl,
    t.spanWithin_relabelled id fun _ => rfl]

/-! #### Changes -/

theorem relabelled_modify (put : Node → Node) (hput : ∀ n : Node, (put n).relabelled f = put (n.relabelled f)) :
    (⟨t.nodes.modify id put⟩ : Tree).relabelled f = ⟨(t.relabelled f).nodes.modify id put⟩ := by
  refine congrArg Tree.mk (Array.ext_getElem? fun k => ?_)
  rw [Array.getElem?_map, Array.getElem?_modify, Array.getElem?_modify, relabelled, Array.getElem?_map]
  split
  · rw [Option.map_map, Option.map_map]
    exact congrArg (fun look => Option.map look t.nodes[k]?) (funext hput)
  · rfl

theorem relabelled_extend (growth : Growth) (put : Node → Node)
    (hput : ∀ n : Node, (put n).relabelled f = put (n.relabelled f)) :
    (t.extend id growth put).relabelled f = (t.relabelled f).extend id (growth.relabelled f) put := by
  have hold : (t.nodes.modify id put).map (Node.relabelled f) = (t.relabelled f).nodes.modify id put :=
    congrArg Tree.nodes (t.relabelled_modify id put hput)
  rw [extend, extend, size_relabelled, Growth.nodes_relabelled, ← List.map_toArray, ← hold]
  exact congrArg Tree.mk Array.map_append

theorem relabelled_apply (c : Change) :
    (t.relabelled f).apply id (c.relabelled f) = ((t.apply id c).1.relabelled f, (t.apply id c).2) := by
  cases c with
  | replace e =>
    exact congrArg (·, id) (t.relabelled_modify id (·.replaceLast e) fun _ => rfl).symm
  | grow growth =>
    show ((t.relabelled f).extend id (growth.relabelled f) _, _) = (_, _)
    rw [size_relabelled, Growth.entry_relabelled, Growth.taker_relabelled]
    exact congrArg (·, growth.taker id t.size)
      (t.relabelled_extend id growth (·.push (growth.entry t.size)) fun _ => rfl).symm

theorem relabelled_settle : (t.settle id).relabelled f = (t.relabelled f).settle id :=
  t.relabelled_modify id _ fun _ => rfl

end Tree

namespace Grammar.Relabels

variable (h : g.Relabels f g') (t : Tree) (id : NodeId)
include h

theorem offer (p : Phrase) : (t.relabelled f).offer g' p id = (t.offer g p id).map (Change.relabelled f) := by
  rw [Tree.offer, Tree.offer, Tree.node?_relabelled]
  cases t.node? id with
  | none => rfl
  | some n => exact h.offerNode p n

theorem needsMore : (t.relabelled f).needsMore g' id = t.needsMore g id := by
  rw [Tree.needsMore, Tree.needsMore, Tree.node?_relabelled, Option.any_map]
  exact congrArg (fun look => Option.any look (t.node? id)) (funext h.needsMoreNode)

theorem place : (t.relabelled f).place g' id = t.place g id := by
  rw [Tree.place, Tree.place, Tree.node?_relabelled]
  cases t.node? id with
  | none => rfl
  | some n => exact h.placeNode n

theorem offerInOrder (p : Phrase) (ids : List NodeId) :
    (t.relabelled f).offerInOrder g' p ids = (t.offerInOrder g p ids).relabelled f := by
  induction ids with
  | nil => rfl
  | cons id rest ih =>
    simp only [Tree.offerInOrder, h.offer, Search.found?_map, Search.dropped_map, ih]
    cases (t.offer g p id).found? <;> rfl

/-- **A climb comes to the same.** -/
theorem climb (p : Phrase) : (t.relabelled f).climb g' p id = (t.climb g p id).relabelled f := by
  rw [Tree.climb_eq, Tree.climb_eq, Tree.ancestors_relabelled, h.offerInOrder]

theorem leaving (k : Climb) : (t.relabelled f).leaving g' id (k.relabelled f) = t.leaving g id k := by
  have hplace : (t.relabelled f).place g' = t.place g := funext (h.place t)
  have hneeds : (t.relabelled f).needsMore g' = t.needsMore g := funext (h.needsMore t)
  rw [Tree.leaving, Tree.leaving, hplace, hneeds]
  rcases k with ⟨dropped, refused, _ | ⟨taker, c⟩⟩ <;> rfl

theorem adopt (rule : RuleId) (growth : Growth) :
    (t.relabelled f).adopt g' id (f rule) (growth.relabelled f) =
      ((t.adopt g id rule growth).1.relabelled f, (t.adopt g id rule growth).2) := by
  have hslot : g'.global.slot 0 = g.global.slot 0 := by rw [h.global]; rfl
  have hline : Growth.child (g.global.slot 0) (f rule) (growth.relabelled f) =
      (Growth.child (g.global.slot 0) rule growth).relabelled f := rfl
  simp only [Tree.adopt, hslot, hline, Tree.size_relabelled, Growth.taker_relabelled]
  exact congrArg (·, _) (t.relabelled_extend id _ (·.pushGlobal _) fun _ => rfl).symm

end Grammar.Relabels

end PhraseTree
