import PhraseTree.Proofs.Tree.Lineage

/-!
# What a tree changes when it takes a phrase

A tree that takes a phrase changes one instance and hangs a line of new ones below it.

* `Node.Alters n n'` — what taking a phrase by its own parts does to an instance;
* `Tree.Graft t id n n' depth t' taker` — of the instances of `t` only `id` changes, from `n` to `n'`; `depth` new ones
  follow, each the only child of the one before, and the last of them takes the phrase, or `id` itself does;
* `Tree.graft_apply`, `Tree.graft_adopt`: both ways to take a phrase are grafts, so whatever takes a phrase is one
  (`Tree.Takes.graft`);
* `Tree.Graft.chain_old`, `Tree.Graft.mem_chain_taker`: the instances around an old one are the same as before, those
  around the taker are the new ones and those around `id`.
-/

namespace PhraseTree

variable {g : Grammar} {p : Phrase}

/-! ### Children -/

/-- A child, with the innermost of the instances that were made together with it. -/
def Entry.link? (e : Entry) : Option (Nat × Nat) := e.child?.map fun x => (x.node, x.deepest)

/-- The link to a line of `depth` new instances, of which the first has the number `base`. -/
def lineLink? (base depth : Nat) : Option (Nat × Nat) := if depth = 0 then none else some (base, base + (depth - 1))

theorem Growth.link?_entry (growth : Growth) (base : Nat) :
    (growth.entry base).link? = lineLink? base growth.depth := by
  cases growth <;> simp [Growth.entry, Entry.link?, Entry.child?, lineLink?, Growth.depth]

namespace Node

variable {n : Node} {e : Entry} {x : Child}

/-- The children, those of entries in the order of the text and then those of global rules. -/
def instances (n : Node) : List Child := n.inOrder.filterMap Entry.child? ++ n.globals.reverse

/-- The numbers of the children and of the innermost instances made together with them. -/
def links (n : Node) : List (Nat × Nat) := n.instances.map fun x => (x.node, x.deepest)

theorem children_eq (n : Node) : n.children = n.links.map Prod.fst := by
  simp only [children, links, instances, List.map_map]
  rfl

/-- The child is the latest entry or the latest instance of a global rule. -/
def Latest (n : Node) (id : NodeId) : Prop :=
  (∃ x, n.last? = some (.child x) ∧ x.node = id) ∨ ∃ x, n.globals.head? = some x ∧ x.node = id

theorem links_eq (n : Node) :
    n.links = n.inOrder.filterMap Entry.link? ++ n.globals.reverse.map fun x => (x.node, x.deepest) := by
  rw [links, instances, List.map_append, List.map_filterMap]
  rfl

theorem links_push (n : Node) (e : Entry) : (n.push e).links.Perm (e.link?.toList ++ n.links) := by
  have horder : (n.push e).inOrder.filterMap Entry.link? = n.inOrder.filterMap Entry.link? ++ e.link?.toList := by
    simp only [inOrder, push, List.reverse_cons, List.filterMap_append]
    cases h : e.link? <;> simp [h]
  rw [links_eq, links_eq, horder, List.append_assoc]
  exact List.perm_append_comm_assoc _ _ _

theorem links_pushGlobal (n : Node) (x : Child) : (n.pushGlobal x).links.Perm ((x.node, x.deepest) :: n.links) := by
  have hglobals : (n.pushGlobal x).globals.reverse = n.globals.reverse ++ [x] := List.reverse_cons
  rw [links_eq, links_eq, hglobals, List.map_append, ← List.append_assoc]
  exact List.perm_append_singleton _ _

/-- An entry that gives way to one with the same child leaves the children as they are. -/
theorem links_replaceLast {e' : Entry} (hlast : n.last? = some e) (hlink : e'.link? = e.link?) :
    (n.replaceLast e').links = n.links := by
  obtain ⟨rest, hn⟩ : ∃ rest, n.entries = e :: rest := List.head?_eq_some_iff.mp hlast
  have horder : (n.replaceLast e').inOrder.filterMap Entry.link? = n.inOrder.filterMap Entry.link? := by
    simp only [inOrder, replaceLast, hn, List.tail_cons, List.reverse_cons, List.filterMap_append,
      List.filterMap_cons, hlink]
  rw [links_eq, links_eq, horder]
  rfl

/-! ### Instances that take a phrase -/

/-- **What taking a phrase does to an instance**: an entry follows, or the latest one gives way to one of its kind. -/
inductive Alters (n : Node) : Node → Prop
  | appended (e : Entry) : n.Alters (n.push e)
  | capture {c c' : Capture} (hlast : n.last? = some (.capture c)) (hpart : c'.part = c.part) :
      n.Alters (n.replaceLast (.capture c'))
  | fork {f f' : Fork} (hlast : n.last? = some (.fork f)) (hpart : f'.part = f.part) :
      n.Alters (n.replaceLast (.fork f'))
  | separator {x : Child} (hlast : n.last? = some (.child x)) (hdue : x.separated = false) :
      n.Alters (n.replaceLast (.child { x with separated := true }))

end Node

/-- The instance `n` after the change, where the first new instance gets number `base`. -/
def Change.on (base : NodeId) (n : Node) : Change → Node
  | .replace e => n.replaceLast e
  | .grow growth => n.push (growth.entry base)

namespace Node.Answers

variable {n : Node} {change : Change} {e : Entry}

theorem alters (h : n.Answers g p change) (base : NodeId) : n.Alters (change.on base n) := by
  cases h with
  | capture hlast hfin hat hresume => exact .capture hlast (SimplePart.resume?_part hresume)
  | fork hlast hat hresume => exact .fork hlast (Alternatives.resume?_spec hresume).1
  | separator hlast hat hdue hsep => exact .separator hlast hdue
  | again | first | onward => exact .appended _

theorem link?_replace (h : n.Answers g p (.replace e)) : ∃ last, n.last? = some last ∧ e.link? = last.link? := by
  cases h with
  | capture hlast | fork hlast | separator hlast => exact ⟨_, hlast, rfl⟩

end Node.Answers

/-! ### Trees that take a phrase -/

/-- **A graft below `id`.** -/
structure Tree.Graft (t : Tree) (id : Nat) (n n' : Node) (depth : Nat) (t' : Tree) (taker : Nat) : Prop where
  before : t.node? id = some n
  after : t'.node? id = some n'
  rule : n'.rule = n.rule
  parent : n'.parent? = n.parent?
  others : ∀ j, j < t.size → j ≠ id → t'.node? j = t.node? j
  size : t'.size = t.size + depth
  /-- Each new instance has one entry, and below it the next new instance, if there is one. -/
  line : ∀ k, k < depth → ∃ rule e,
    t'.node? (t.size + k) = some ⟨rule, some (if k = 0 then id else t.size + (k - 1)), [e], []⟩ ∧
      e.link? = lineLink? (t.size + k + 1) (depth - (k + 1))
  /-- The changed instance has one more child if there are new instances, and keeps the others. -/
  links : n'.links.Perm ((lineLink? t.size depth).toList ++ n.links)
  latest : 0 < depth → n'.Latest t.size
  filled : n.entries ≠ [] → n'.entries ≠ []
  taker : taker = if depth = 0 then id else t.size + (depth - 1)

namespace Tree

variable {t t' : Tree} {id active taker depth j : Nat} {n n' : Node} {change : Change}

theorem size_modify (t : Tree) (id : NodeId) (put : Node → Node) :
    (⟨t.nodes.modify id put⟩ : Tree).size = t.size := by simp [size]

/-- A change of one instance that makes no new ones. -/
theorem graft_modify (put : Node → Node) (hn : t.node? id = some n) (hrule : (put n).rule = n.rule)
    (hparent : (put n).parent? = n.parent?) (hlinks : (put n).links = n.links)
    (hfilled : n.entries ≠ [] → (put n).entries ≠ []) :
    t.Graft id n (put n) 0 ⟨t.nodes.modify id put⟩ id where
  before := hn
  after := by rw [node?_modify, if_pos rfl, hn, Option.map_some]
  rule := hrule
  parent := hparent
  others := by
    intro j hj hne
    rw [node?_modify, if_neg (Ne.symm hne)]
  size := size_modify t id put
  line := by
    intro k hk
    omega
  links := by
    rw [hlinks]
    exact List.Perm.refl _
  latest := by
    intro h
    omega
  filled := hfilled
  taker := rfl

/-- A change of one instance with new ones below it. -/
theorem graft_extend (growth : Growth) (put : Node → Node) (hn : t.node? id = some n)
    (hrule : (put n).rule = n.rule) (hparent : (put n).parent? = n.parent?)
    (hlinks : (put n).links.Perm ((lineLink? t.size growth.depth).toList ++ n.links))
    (hlatest : 0 < growth.depth → (put n).Latest t.size) (hfilled : n.entries ≠ [] → (put n).entries ≠ []) :
    t.Graft id n (put n) growth.depth (t.extend id growth put) (growth.taker id t.size) where
  before := hn
  after := by rw [node?_extend_of_lt (lt_size_of_node? hn), if_pos rfl, hn, Option.map_some]
  rule := hrule
  parent := hparent
  others := by
    intro j hj hne
    rw [node?_extend_of_lt hj, if_neg (Ne.symm hne)]
  size := size_extend t id growth put
  line := by
    intro k hk
    have hlt : k < (growth.nodes id t.size).length := by rwa [Growth.length_nodes]
    obtain ⟨rule, inner, hnode, hdepth, -, -⟩ := Growth.nodes_getElem? (List.getElem?_eq_getElem hlt)
    refine ⟨rule, inner.entry (t.size + k + 1), ?_, ?_⟩
    · rw [node?_extend_add, List.getElem?_eq_getElem hlt, hnode]
    · rw [Growth.link?_entry, show inner.depth = growth.depth - (k + 1) by omega]
  links := hlinks
  latest := hlatest
  filled := hfilled
  taker := growth.taker_eq id t.size

/-- **An instance that takes a phrase** is changed, and what it makes hangs below it. -/
theorem graft_apply (hn : t.node? id = some n) (ha : n.Answers g p change) :
    t.Graft id n (change.on t.size n) change.made (t.apply id change).1 (t.apply id change).2 := by
  cases change with
  | replace e =>
    obtain ⟨last, hlast, hlink⟩ := ha.link?_replace
    exact graft_modify (·.replaceLast e) hn rfl rfl (Node.links_replaceLast hlast hlink)
      fun _ => List.cons_ne_nil _ _
  | grow growth =>
    refine graft_extend growth (·.push (growth.entry t.size)) hn rfl rfl ?_ ?_ fun _ => List.cons_ne_nil _ _
    · rw [← Growth.link?_entry]
      exact n.links_push _
    · intro hpos
      cases growth with
      | capture | fork => simp [Growth.depth] at hpos
      | child slot rule growth => exact Or.inl ⟨_, rfl, rfl⟩

/-- **An instance on whose behalf a global rule takes a phrase** gets a child. -/
theorem graft_adopt (g : Grammar) (hn : t.node? id = some n) (rule : RuleId) (growth : Growth) :
    ∃ x, t.Graft id n (n.pushGlobal x) (growth.depth + 1) (t.adopt g id rule growth).1 (t.adopt g id rule growth).2 :=
  let x : Child := { g.global.slot 0 with
    node := t.size, deepest := (Growth.child (g.global.slot 0) rule growth).taker id t.size }
  ⟨x, graft_extend (.child (g.global.slot 0) rule growth) (·.pushGlobal x) hn rfl rfl (n.links_pushGlobal x)
    (fun _ => Or.inr ⟨x, rfl, rfl⟩) fun h => h⟩

/-- What is not read again leaves everything but the latest entry of one instance as it is. -/
theorem graft_settle (hn : t.node? id = some n) :
    t.Graft id n { n with entries := n.entries.modifyHead Entry.settled } 0 (t.settle id) id := by
  refine graft_modify (fun n => { n with entries := n.entries.modifyHead Entry.settled }) hn rfl rfl ?_ ?_
  · rcases hentries : n.entries with _ | ⟨e, rest⟩
    · rw [List.modifyHead_nil, ← hentries]
    · have hlink : e.settled.link? = e.link? := by cases e <;> rfl
      have hlast : n.last? = some e := by rw [Node.last?, hentries, List.head?_cons]
      rw [← Node.links_replaceLast hlast hlink, Node.replaceLast, hentries, List.modifyHead_cons, List.tail_cons]
  · intro hne
    rcases hentries : n.entries with _ | ⟨e, rest⟩
    · exact absurd hentries hne
    · exact List.cons_ne_nil _ _

/-- **A tree that takes a phrase is grafted** below the active instance or one around it. -/
theorem Takes.graft (ht : t.Takes g active p t' taker) (hlt : active < t.size) :
    ∃ id ∈ t.chain active, ∃ n n' depth, t.Graft id n n' depth t' taker := by
  cases ht with
  | own hn ha => exact ⟨active, t.mem_chain_self active, _, _, _, graft_apply hn ha⟩
  | ancestor hown hid hn ha => exact ⟨_, List.mem_cons_of_mem _ hid, _, _, _, graft_apply hn ha⟩
  | global hown hmem hgrows =>
    obtain ⟨n, hn⟩ := node?_of_lt hlt
    obtain ⟨x, hgraft⟩ := graft_adopt g hn _ _
    exact ⟨active, t.mem_chain_self active, n, _, _, hgraft⟩

namespace Graft

variable (h : t.Graft id n n' depth t' taker)

include h

theorem id_lt : id < t.size := lt_size_of_node? h.before

theorem keeps : t.Keeps t' := by
  intro j m hm
  by_cases hj : j = id
  · subst hj
    cases hm.symm.trans h.before
    exact ⟨n', h.after, h.rule, h.parent⟩
  · exact ⟨m, (h.others j (lt_size_of_node? hm) hj).trans hm, rfl, rfl⟩

theorem parent?_new {k : Nat} (hk : k < depth) :
    t'.parent? (t.size + k) = some (if k = 0 then id else t.size + (k - 1)) := by
  obtain ⟨rule, e, hn, -⟩ := h.line k hk
  rw [parent?_eq hn]

theorem old_or_new (hj : j < t'.size) : j < t.size ∨ ∃ k, k < depth ∧ j = t.size + k := by
  rw [h.size] at hj
  by_cases hold : j < t.size
  · exact Or.inl hold
  · exact Or.inr ⟨j - t.size, by omega, by omega⟩

theorem ordered (ho : t.Ordered) : t'.Ordered := by
  intro j q hq
  rcases h.old_or_new (lt_size_of_parent? hq) with hj | ⟨k, hk, rfl⟩
  · rw [h.keeps.parent?_eq hj] at hq
    exact ho j q hq
  · rw [h.parent?_new hk] at hq
    have hid := h.id_lt
    obtain rfl := Option.some.inj hq
    show (if k = 0 then id else t.size + (k - 1)) < t.size + k
    split <;> omega

theorem chain_old (ho : t.Ordered) (hj : j < t.size) : t'.chain j = t.chain j :=
  h.keeps.chain_eq ho (h.ordered ho) hj

theorem mem_chain_new (ho : t.Ordered) {k : Nat} (hk : k < depth) :
    j ∈ t'.chain (t.size + k) ↔ j ∈ t.chain id ∨ t.size ≤ j ∧ j ≤ t.size + k := by
  induction k with
  | zero =>
    rw [(h.ordered ho).chain_of_parent (h.parent?_new hk), if_pos rfl, h.chain_old ho h.id_lt, List.mem_cons]
    constructor
    · rintro (rfl | hj)
      · exact Or.inr ⟨le_rfl, le_rfl⟩
      · exact Or.inl hj
    · rintro (hj | ⟨hle, hle'⟩)
      · exact Or.inr hj
      · exact Or.inl (by omega)
  | succ k ih =>
    rw [(h.ordered ho).chain_of_parent (h.parent?_new hk), if_neg (by omega), Nat.add_sub_cancel, List.mem_cons,
      ih (by omega)]
    constructor
    · rintro (rfl | hj | ⟨hle, hle'⟩)
      · exact Or.inr ⟨by omega, le_rfl⟩
      · exact Or.inl hj
      · exact Or.inr ⟨hle, by omega⟩
    · rintro (hj | ⟨hle, hle'⟩)
      · exact Or.inr (Or.inl hj)
      · by_cases hlast : j = t.size + (k + 1)
        · exact Or.inl hlast
        · exact Or.inr (Or.inr ⟨hle, by omega⟩)

/-- **The instances around the taker** are the new ones and those around the changed one. -/
theorem mem_chain_taker (ho : t.Ordered) : j ∈ t'.chain taker ↔ j ∈ t.chain id ∨ t.size ≤ j ∧ j < t'.size := by
  rw [h.taker, h.size]
  by_cases hd : depth = 0
  · rw [if_pos hd, h.chain_old ho h.id_lt]
    constructor
    · intro hj
      exact Or.inl hj
    · rintro (hj | ⟨hle, hlt⟩)
      · exact hj
      · omega
  · rw [if_neg hd, h.mem_chain_new ho (by omega)]
    constructor
    · rintro (hj | ⟨hle, hle'⟩)
      · exact Or.inl hj
      · exact Or.inr ⟨hle, by omega⟩
    · rintro (hj | ⟨hle, hlt⟩)
      · exact Or.inl hj
      · exact Or.inr ⟨hle, by omega⟩

/-- An instance that does not stand around the taker is an old one, as it was before. -/
theorem of_not_mem_chain {m : Node} (ho : t.Ordered) (hm : t'.node? j = some m) (hj : j ∉ t'.chain taker) :
    t.node? j = some m ∧ j ∉ t.chain id := by
  have hlt : j < t'.size := lt_size_of_node? hm
  rw [h.mem_chain_taker ho] at hj
  have hold : j < t.size := by
    by_contra hnew
    exact hj (Or.inr ⟨by omega, hlt⟩)
  have hchain : j ∉ t.chain id := fun hmem => hj (Or.inl hmem)
  have hne : j ≠ id := by
    rintro rfl
    exact hchain (t.mem_chain_self j)
  exact ⟨by rw [← h.others j hold hne]; exact hm, hchain⟩

end Graft

end Tree

end PhraseTree
