import PhraseTree.Proofs.Capture.Stretch
import PhraseTree.Proofs.Tree.Arrangement

/-!
# Where the instances of a tree lie

A `Layout` says where each instance starts and where it stops, in characters of the text.  A tree is laid out by it
(`Tree.Laid`) if the entries of every instance lie one after the other, from where it starts up to where it stops, and
so do the instances of global rules that were made on its behalf, from some place to another.

An instance has no end of its own: it stops where its latest entry does, so a phrase that is taken moves the end of every
instance whose latest entries lead to the taker.

* `Tree.EndsIn t id j` — the latest entries lead from `j` down to `id`; such instances stand around `id`, and they stop
  where it does (`Tree.Laid.stop_eq`);
* `Layout.Grown` — the layout after a change of `id`, which now stops elsewhere;
* `Tree.Laid.graft`: **a tree that takes a phrase is laid out** by the grown layout if the changed instance is;
* `Tree.Laid.span?_eq`: in a tree that is laid out, an instance covers the stretch that the layout says.
-/

namespace PhraseTree

/-! ### Latest entries -/

/-- **The latest entries lead from `j` down to `id`.** -/
inductive Tree.EndsIn (t : Tree) (id : NodeId) : NodeId → Prop
  | here : t.EndsIn id id
  | child {j : NodeId} {n : Node} {x : Child} (hn : t.node? j = some n) (hlast : n.last? = some (.child x))
      (h : t.EndsIn id x.node) : t.EndsIn id j

theorem Node.count_children (n : Node) (j : Nat) :
    n.children.count j =
      (n.entries.filterMap Entry.child?).countP (·.node == j) + n.globals.countP (·.node == j) := by
  simp only [children, inOrder, List.count, List.countP_map, List.filterMap_reverse, List.countP_append,
    List.countP_reverse, Function.comp_def]

namespace Tree

variable {t t' : Tree} {active id taker depth j q : Nat} {n n' : Node} {x : Child}

namespace Arranged

variable (h : t.Arranged active)

include h

theorem child_bounds (hn : t.node? q = some n) (hj : j ∈ n.children) : q < j ∧ j < t.size := by
  have hparent := h.owner j q (mem_children_of_node hn hj)
  exact ⟨h.ordered j q hparent, lt_size_of_parent? hparent⟩

theorem latest_of_mem_chain (hn : t.node? q = some n) (hj : j ∈ n.children) (hchain : j ∈ t.chain active) :
    n.Latest j ∧
      (n.entries.filterMap Entry.child?).countP (·.node == j) + n.globals.countP (·.node == j) = 1 := by
  have hparent := h.owner j q (mem_children_of_node hn hj)
  obtain ⟨m, hm, hlatest⟩ := h.spine j hchain q hparent
  cases hn.symm.trans hm
  have hcount := h.owned j q hparent
  rw [children, hn] at hcount
  exact ⟨hlatest, by rw [← n.count_children]; exact hcount⟩

theorem not_mem_chain_of_entries (hn : t.node? q = some n) (hx : .child x ∈ n.entries.tail) :
    x.node ∉ t.chain active := by
  intro hchain
  have hmem := Node.child_mem_children (List.mem_of_mem_tail hx)
  obtain ⟨hlatest, hcount⟩ := h.latest_of_mem_chain hn hmem hchain
  have htail : 0 < (n.entries.tail.filterMap Entry.child?).countP (·.node == x.node) :=
    List.countP_pos_iff.mpr ⟨x, List.mem_filterMap.mpr ⟨_, hx, rfl⟩, by simp⟩
  rcases hentries : n.entries with _ | ⟨last, rest⟩
  · rw [hentries] at hx
    cases hx
  · rw [hentries, List.tail_cons] at htail
    rcases hlatest with ⟨y, hlast, hy⟩ | ⟨y, hhead, hy⟩
    · obtain rfl : last = .child y := by simpa [Node.last?, hentries] using hlast
      simp only [hentries, List.filterMap_cons, Entry.child?, List.countP_cons, hy, beq_self_eq_true, if_true] at hcount
      omega
    · have hglobals : 0 < n.globals.countP (·.node == x.node) :=
        List.countP_pos_iff.mpr ⟨y, List.mem_of_mem_head? hhead, by simp [hy]⟩
      have hmore : (rest.filterMap Entry.child?).countP (·.node == x.node) ≤
          (n.entries.filterMap Entry.child?).countP (·.node == x.node) := by
        rw [hentries]
        exact ((List.sublist_cons_self last rest).filterMap _).countP_le
      omega

theorem not_mem_chain_of_globals (hn : t.node? q = some n) (hx : x ∈ n.globals.tail) : x.node ∉ t.chain active := by
  intro hchain
  have hmem := Node.global_mem_children (List.mem_of_mem_tail hx)
  obtain ⟨hlatest, hcount⟩ := h.latest_of_mem_chain hn hmem hchain
  have htail : 0 < n.globals.tail.countP (·.node == x.node) := List.countP_pos_iff.mpr ⟨x, hx, by simp⟩
  rcases hlatest with ⟨y, hlast, hy⟩ | ⟨y, hhead, hy⟩
  · have hentries : 0 < (n.entries.filterMap Entry.child?).countP (·.node == x.node) :=
      List.countP_pos_iff.mpr ⟨y, List.mem_filterMap.mpr ⟨_, List.mem_of_mem_head? hlast, rfl⟩, by simp [hy]⟩
    have hmore := (List.tail_sublist n.globals).countP_le (p := fun c => c.node == x.node)
    omega
  · obtain ⟨rest, hglobals⟩ := List.head?_eq_some_iff.mp hhead
    rw [hglobals, List.tail_cons] at htail
    simp only [hglobals, List.countP_cons, hy, beq_self_eq_true, if_true] at hcount
    omega

theorem mem_chain_of_endsIn (hends : t.EndsIn id j) : j ∈ t.chain id := by
  induction hends with
  | here => exact t.mem_chain_self id
  | @child j n x hn hlast hends ih =>
    have hparent := h.owner _ j (mem_children_of_node hn (Node.child_mem_children (List.mem_of_mem_head? hlast)))
    refine h.ordered.chain_subset ih j ?_
    rw [h.ordered.chain_of_parent hparent]
    exact List.mem_cons_of_mem _ (t.mem_chain_self j)

theorem not_endsIn_of_entries (hid : id ∈ t.chain active) (hn : t.node? q = some n) (hx : .child x ∈ n.entries.tail) :
    ¬ t.EndsIn id x.node :=
  fun hends => h.not_mem_chain_of_entries hn hx (h.ordered.chain_subset hid _ (h.mem_chain_of_endsIn hends))

theorem not_endsIn_of_globals (hid : id ∈ t.chain active) (hn : t.node? q = some n) (hx : x ∈ n.globals.tail) :
    ¬ t.EndsIn id x.node :=
  fun hends => h.not_mem_chain_of_globals hn hx (h.ordered.chain_subset hid _ (h.mem_chain_of_endsIn hends))

theorem le_of_endsIn (hends : t.EndsIn id j) : j ≤ id := h.ordered.le_of_mem_chain (h.mem_chain_of_endsIn hends)

/-- Children are made after the instance they belong to, so none of them ends in it. -/
theorem not_endsIn_of_child (hn : t.node? id = some n) (hx : x.node ∈ n.children) :
    ¬ t.EndsIn id x.node := by
  intro hends
  have hlt := (h.child_bounds hn hx).1
  have hle := h.le_of_endsIn hends
  omega

end Arranged

/-! ### Ends of a changed tree -/

namespace Graft

variable (hg : t.Graft id n n' depth t' taker)

include hg

theorem endsIn_old (ha : t.Arranged active) (hid : t'.EndsIn taker id) (hends : t.EndsIn id j) :
    t'.EndsIn taker j := by
  induction hends with
  | here => exact hid
  | @child j m x hm hlast hends ih =>
    have hle := ha.le_of_endsIn hends
    obtain ⟨hlt, hsize⟩ := ha.child_bounds hm (Node.child_mem_children (List.mem_of_mem_head? hlast))
    exact .child ((hg.others j (hlt.trans hsize) (by omega)).trans hm) hlast ih

theorem endsIn_new {k : Nat} (hk : k < depth) : t'.EndsIn taker (t.size + k) := by
  obtain ⟨rest, hrest⟩ : ∃ rest, depth = k + 1 + rest := ⟨depth - (k + 1), by omega⟩
  induction rest generalizing k with
  | zero =>
    have htaker : taker = t.size + k := by rw [hg.taker, if_neg (by omega), hrest]; rfl
    rw [htaker]
    exact .here
  | succ rest ih =>
    obtain ⟨rule, e, hn, hlink⟩ := hg.line k hk
    obtain ⟨x, rfl, hx⟩ := Entry.child_of_link? (hlink.trans (lineLink?_eq_some.mpr ⟨by omega, rfl⟩))
    refine .child hn rfl ?_
    rw [hx]
    exact ih (k := k + 1) (by omega) (by omega)

end Graft

end Tree

/-! ### Layouts -/

/-- Where the instances of a tree lie. -/
structure Layout where
  start : NodeId → Nat
  stop : NodeId → Nat

variable {text : List Char} {m m' : Layout} {a b e low high : Nat} {p : Phrase}

/-- Where a child lies. -/
def Child.Lies (m : Layout) (x : Child) (a b : Nat) : Prop := m.start x.node = a ∧ m.stop x.node = b

/-- Where an entry lies. -/
def Entry.Lies (text : List Char) (m : Layout) : Entry → Nat → Nat → Prop
  | .capture c => c.Lies text
  | .fork f => f.Lies text
  | .child x => x.Lies m

/-- **A tree that is laid out.** -/
structure Tree.Laid (text : List Char) (t : Tree) (m : Layout) : Prop where
  entries : ∀ id n, t.node? id = some n → n.entries ≠ [] →
    Stacked (Entry.Lies text m) n.entries (m.start id) (m.stop id)
  globals : ∀ id n, t.node? id = some n → n.globals ≠ [] → ∃ a b, Stacked (Child.Lies m) n.globals a b

/-- **The layout after a change of `id`**: the instances that end in `id` stop at `e`, new ones lie from `a` up to `b`,
and all others lie where they lay. -/
structure Layout.Grown (t : Tree) (id : NodeId) (m : Layout) (a b e : Nat) (m' : Layout) : Prop where
  start_old : ∀ j : Nat, j < t.size → m'.start j = m.start j
  stop_ends : ∀ j : Nat, j < t.size → t.EndsIn id j → m'.stop j = e
  stop_old : ∀ j : Nat, j < t.size → ¬ t.EndsIn id j → m'.stop j = m.stop j
  new : ∀ j : Nat, t.size ≤ j → m'.start j = a ∧ m'.stop j = b

/-- **Nothing lies behind `low`** but the ends of the instances that end in `id`, and they do not lie behind `high`. -/
structure Layout.Below (m : Layout) (t : Tree) (id : NodeId) (low high : Nat) : Prop where
  start_le : ∀ j : Nat, j < t.size → m.start j ≤ low
  stop_le : ∀ j : Nat, j < t.size → m.stop j ≤ low ∨ t.EndsIn id j ∧ m.stop j ≤ high

theorem Layout.exists_grown (t : Tree) (id : NodeId) (m : Layout) (a b e : Nat) : ∃ m', m.Grown t id a b e m' := by
  classical
  refine ⟨⟨fun j => if j < t.size then m.start j else a,
    fun j => if j < t.size then if t.EndsIn id j then e else m.stop j else b⟩, ?_, ?_, ?_, ?_⟩
  · intro j hj
    exact if_pos hj
  · intro j hj hends
    exact (if_pos hj).trans (if_pos hends)
  · intro j hj hends
    exact (if_pos hj).trans (if_neg hends)
  · intro j hj
    exact ⟨if_neg (Nat.not_lt.mpr hj), if_neg (Nat.not_lt.mpr hj)⟩

/-- Where nothing lies behind a place at all, it does not matter what ends in what. -/
theorem Layout.Below.mono {t t' : Tree} {id id' : NodeId} {low' high' : Nat} (h : m.Below t id low high)
    (hlow : low ≤ low') (hhigh : high ≤ low') (hsize : t'.size = t.size) : m.Below t' id' low' high' where
  start_le := fun j hj => (h.start_le j (hsize ▸ hj)).trans hlow
  stop_le := fun j hj => Or.inl (by rcases h.stop_le j (hsize ▸ hj) with hle | ⟨-, hle⟩ <;> omega)

theorem Grows.lies {g : Grammar} {parts : List (Part RuleId)} {i : Nat} {growth : Growth} {base : NodeId}
    (h : Grows g p parts i growth) (hp : p.span = stretch text a b) (hlt : a < b)
    (hbase : m.start base = a ∧ m.stop base = b) : (growth.entry base).Lies text m a b := by
  cases h with
  | capture _ _ _ hbegin => exact SimplePart.begin?_lies hbegin hp
  | fork _ _ _ hbegin => exact Alternatives.begin?_lies hbegin hp hlt
  | child => exact hbase

/-! ### What does not move -/

namespace Layout.Grown

variable {t : Tree} {active id q : Nat} {n : Node} {x : Child} (hm : m.Grown t id a b e m') (ha : t.Arranged active)

include hm ha

theorem child (hn : t.node? q = some n) (hx : x.node ∈ n.children) (hends : ¬ t.EndsIn id x.node) :
    ∀ c d, x.Lies m c d → x.Lies m' c d := by
  intro c d hlies
  have hlt := (ha.child_bounds hn hx).2
  exact ⟨(hm.start_old _ hlt).trans hlies.1, (hm.stop_old _ hlt hends).trans hlies.2⟩

theorem entry {entry : Entry} (hn : t.node? q = some n) (hentry : entry ∈ n.entries)
    (hends : ∀ x, entry = .child x → ¬ t.EndsIn id x.node) :
    ∀ c d, entry.Lies text m c d → entry.Lies text m' c d := by
  intro c d hlies
  cases entry with
  | capture | fork => exact hlies
  | child x => exact hm.child ha hn (Node.child_mem_children hentry) (hends x rfl) c d hlies

theorem own_entry {entry : Entry} (hn : t.node? id = some n) (hentry : entry ∈ n.entries) :
    ∀ c d, entry.Lies text m c d → entry.Lies text m' c d := by
  refine hm.entry ha hn hentry fun x hx => ?_
  subst hx
  exact ha.not_endsIn_of_child hn (Node.child_mem_children hentry)

theorem own_global (hn : t.node? id = some n) (hx : x ∈ n.globals) : ∀ c d, x.Lies m c d → x.Lies m' c d :=
  hm.child ha hn (Node.global_mem_children hx) (ha.not_endsIn_of_child hn (Node.global_mem_children hx))

end Layout.Grown

/-! ### Instances in order -/

/-- The stretch that an entry covers; that of a child is its own. -/
def Tree.extent? (t : Tree) : Entry → Option Span
  | .child x => t.span? x.node
  | e => e.span?

/-- **What an instance took, in the order of the text.**  Its entries cover `spans` and the instances of global rules
that were made on its behalf cover `globals`; the spans of either are in order.  The instance itself covers the smallest
span that holds those of its entries, and so they lie inside it. -/
structure Node.InOrder (t : Tree) (id : NodeId) (n : Node) (spans globals : List Span) : Prop where
  entries_cover : n.inOrder.map t.extent? = spans.map some
  globals_cover : n.globals.reverse.map (t.span? ·.node) = globals.map some
  entries_ordered : Span.InOrder spans
  globals_ordered : Span.InOrder globals
  hull : t.span? id = Span.hull? spans
  within : ∀ s ∈ spans, ∀ whole, t.span? id = some whole → s.Within whole

/-- **A tree in order**: all its instances are. -/
def Tree.InOrder (t : Tree) : Prop := t.All fun id n => ∃ spans globals, n.InOrder t id spans globals

theorem Entry.Lies.reread {entry : Entry} {phrase : String} {start : Cursor} (h : entry.Lies text m a b)
    (hback : entry.toReread? = some (phrase, start)) : start = cursorAt .start text b := by
  cases entry with
  | capture capture =>
    have hlies : capture.span = stretch text a b := h
    rw [Capture.stop_of_toReread? hback, hlies]
    rfl
  | fork f => exact Fork.Lies.reread h hback
  | child => cases hback

namespace Tree

variable {t t' : Tree} {active id taker depth j : Nat} {n n' : Node}

theorem root_laid (text : List Char) (m : Layout) : Tree.root.Laid text m where
  entries := by
    intro id n hn hne
    rw [node?_root hn] at hne
    exact absurd rfl hne
  globals := by
    intro id n hn hne
    rw [node?_root hn] at hne
    exact absurd rfl hne

namespace Laid

variable (h : t.Laid text m)

include h

theorem stop_eq (hends : t.EndsIn id j) : m.stop j = m.stop id := by
  induction hends with
  | here => rfl
  | @child j n x hn hlast hends ih =>
    obtain ⟨rest, hentries⟩ := List.head?_eq_some_iff.mp hlast
    have hstack := h.entries j n hn (by simp [hentries])
    rw [hentries] at hstack
    obtain ⟨c, -, -, -, hstop⟩ := hstack.head
    rw [← hstop, ih]

theorem start_lt (hn : t.node? id = some n) (hne : n.entries ≠ []) : m.start id < m.stop id := (h.entries id n hn hne).lt

/-- Where an instance without entries starts does not matter, if it is no child. -/
theorem restart (hn : t.node? id = some n) (hempty : n.entries = []) (hroot : ∀ q, id ∉ t.children q) (a : Nat) :
    t.Laid text ⟨fun j => if j = id then a else m.start j, m.stop⟩ := by
  have hchild : ∀ {q n' x}, t.node? q = some n' → x.node ∈ n'.children → ∀ c d, Child.Lies m x c d →
      Child.Lies ⟨fun j => if j = id then a else m.start j, m.stop⟩ x c d := by
    intro q n' x hn' hx c d hlies
    have hne : x.node ≠ id := by
      intro he
      exact hroot q (by rw [← he]; exact mem_children_of_node hn' hx)
    exact ⟨(if_neg hne).trans hlies.1, hlies.2⟩
  constructor
  · intro j n' hn' hne
    have hj : j ≠ id := by
      rintro rfl
      cases hn.symm.trans hn'
      exact hne hempty
    show Stacked _ n'.entries (if j = id then a else m.start j) (m.stop j)
    rw [if_neg hj]
    refine (h.entries j n' hn' hne).mono fun e he c d hlies => ?_
    cases e with
    | capture | fork => exact hlies
    | child x => exact hchild hn' (Node.child_mem_children he) c d hlies
  · intro j n' hn' hne
    obtain ⟨c, d, hstack⟩ := h.globals j n' hn' hne
    exact ⟨c, d, hstack.mono fun x hx => hchild hn' (Node.global_mem_children hx)⟩

/-! ### Taking a phrase -/

section Graft

variable (ha : t.Arranged active) (hm : m.Grown t id a b e m') (hid : id ∈ t.chain active)

include ha hm hid

/-- **The entries of an instance around the changed one**: the latest is lengthened if it ends in the changed one. -/
theorem entries_others (hlt : ∀ j : Nat, 0 < j → t.EndsIn id j → m.start j < e) (hn : t.node? j = some n)
    (hne : n.entries ≠ []) (hj : j ≠ id) : Stacked (Entry.Lies text m') n.entries (m'.start j) (m'.stop j) := by
  have hsize := lt_size_of_node? hn
  have hstack := h.entries j n hn hne
  obtain ⟨last, rest, hentries⟩ := List.exists_cons_of_ne_nil hne
  have htail : ∀ x, .child x ∈ rest → ¬ t.EndsIn id x.node := fun x hx =>
    ha.not_endsIn_of_entries hid hn (by rw [hentries]; exact hx)
  have hrest : ∀ entry ∈ rest, ∀ c d, entry.Lies text m c d → entry.Lies text m' c d := by
    intro entry hentry
    refine hm.entry ha hn (by rw [hentries]; exact List.mem_cons_of_mem _ hentry) fun x hx => ?_
    subst hx
    exact htail x hentry
  rw [hm.start_old j hsize]
  by_cases hends : t.EndsIn id j
  · rw [hm.stop_ends j hsize hends]
    cases hends with
    | here => exact absurd rfl hj
    | @child _ _ x hn' hlast hends =>
      cases hn.symm.trans hn'
      obtain rfl : last = .child x := by simpa [Node.last?, hentries] using hlast
      obtain ⟨hpos, hx⟩ := ha.child_bounds hn (Node.child_mem_children (List.mem_of_mem_head? hlast))
      rw [hentries] at hstack ⊢
      refine hstack.replace hrest fun c hlies _ _ => ?_
      have hstart := hlt x.node (by omega) hends
      rw [hlies.1] at hstart
      exact ⟨⟨(hm.start_old _ hx).trans hlies.1, hm.stop_ends _ hx hends⟩, hstart⟩
  · rw [hm.stop_old j hsize hends]
    refine hstack.mono fun entry hentry => hm.entry ha hn hentry fun x hx hx' => ?_
    subst hx
    rw [hentries] at hentry
    rcases List.mem_cons.mp hentry with rfl | hentry
    · exact hends (.child hn (by rw [Node.last?, hentries, List.head?_cons]) hx')
    · exact htail x hentry hx'

theorem globals_others (hlt : ∀ j : Nat, 0 < j → t.EndsIn id j → m.start j < e) (hn : t.node? j = some n)
    (hne : n.globals ≠ []) : ∃ c d, Stacked (Child.Lies m') n.globals c d := by
  obtain ⟨c, d, hstack⟩ := h.globals j n hn hne
  obtain ⟨last, rest, hglobals⟩ := List.exists_cons_of_ne_nil hne
  have hrest : ∀ x ∈ rest, ∀ c d, x.Lies m c d → x.Lies m' c d := by
    intro x hx
    have hmem : x ∈ n.globals := by rw [hglobals]; exact List.mem_cons_of_mem _ hx
    exact hm.child ha hn (Node.global_mem_children hmem)
      (ha.not_endsIn_of_globals hid hn (by rw [hglobals]; exact hx))
  have hlast : last.node ∈ n.children := Node.global_mem_children (by rw [hglobals]; exact List.mem_cons_self)
  obtain ⟨hpos, hsize⟩ := ha.child_bounds hn hlast
  rw [hglobals] at hstack ⊢
  by_cases hends : t.EndsIn id last.node
  · refine ⟨c, e, hstack.replace hrest fun i hlies _ _ => ?_⟩
    have hstart := hlt last.node (by omega) hends
    rw [hlies.1] at hstart
    exact ⟨⟨(hm.start_old _ hsize).trans hlies.1, hm.stop_ends _ hsize hends⟩, hstart⟩
  · refine ⟨c, d, hstack.mono fun x hx => ?_⟩
    rcases List.mem_cons.mp hx with rfl | hx
    · exact hm.child ha hn hlast hends
    · exact hrest x hx

/-- **A tree that takes a phrase is laid out** by the grown layout, if the changed instance and the new ones are. -/
theorem graft (hg : t.Graft id n n' depth t' taker) (hab : a < b)
    (hlt : ∀ j : Nat, 0 < j → t.EndsIn id j → m.start j < e)
    (hentries : n'.entries ≠ [] → Stacked (Entry.Lies text m') n'.entries (m.start id) e)
    (hglobals : n'.globals ≠ [] → ∃ c d, Stacked (Child.Lies m') n'.globals c d)
    (hline : ∀ k < depth, ∀ rule parent? entry, t'.node? (t.size + k) = some ⟨rule, parent?, [entry], []⟩ →
      entry.Lies text m' a b) : t'.Laid text m' := by
  constructor
  · intro j n₁ hn₁ hne
    rcases hg.old_or_new (lt_size_of_node? hn₁) with hj | ⟨k, hk, rfl⟩
    · by_cases hjid : j = id
      · subst hjid
        cases hn₁.symm.trans hg.after
        rw [hm.start_old j hj, hm.stop_ends j hj .here]
        exact hentries hne
      · rw [hg.others j hj hjid] at hn₁
        exact h.entries_others ha hm hid hlt hn₁ hne hjid
    · obtain ⟨rule, entry, hn, -⟩ := hg.line k hk
      cases hn₁.symm.trans hn
      obtain ⟨hstart, hstop⟩ := hm.new (t.size + k) (Nat.le_add_right _ _)
      rw [hstart, hstop]
      exact .single (hline k hk _ _ entry hn) hab
  · intro j n₁ hn₁ hne
    rcases hg.old_or_new (lt_size_of_node? hn₁) with hj | ⟨k, hk, rfl⟩
    · by_cases hjid : j = id
      · subst hjid
        cases hn₁.symm.trans hg.after
        exact hglobals hne
      · rw [hg.others j hj hjid] at hn₁
        exact h.globals_others ha hm hid hlt hn₁ hne
    · obtain ⟨rule, entry, hn, -⟩ := hg.line k hk
      cases hn₁.symm.trans hn
      exact absurd rfl hne

end Graft

end Laid

/-! ### Spans -/

namespace Laid

variable {g : Grammar} (h : t.Laid text m) (ha : t.Arranged active) (hc : t.Conforms g)
  (hlen : text.length < 4294967295) (hstop : ∀ j : Nat, j < t.size → m.stop j ≤ text.length)

include h ha hc hlen hstop

/-- Following the first or the latest entries down leads to a stretch that starts or stops where the instance does. -/
theorem spanWithin_eq (pick : Node → Option Entry) (side : Nat → Nat → Nat) {steps : Nat}
    (hpick : ∀ {n : Node} {a b}, Stacked (Entry.Lies text m) n.entries a b →
      ∃ e ∈ n.entries, ∃ c d, pick n = some e ∧ d ≤ b ∧ e.Lies text m c d ∧ side c d = side a b)
    (hn : t.node? id = some n) (hne : n.entries ≠ []) (hsteps : t.size - id ≤ steps) :
    ∃ c d, t.spanWithin pick steps id = some (stretch text c d) ∧ side c d = side (m.start id) (m.stop id) := by
  have hid : id < t.size := lt_size_of_node? hn
  induction steps generalizing id n with
  | zero => omega
  | succ steps ih =>
    obtain ⟨e, hmem, c, d, hpicked, hd, hlies, hside⟩ := hpick (h.entries id n hn hne)
    have hd : d ≤ text.length := hd.trans (hstop id hid)
    simp only [spanWithin, hn, Option.bind_some, hpicked]
    cases e with
    | capture capture => exact ⟨c, d, congrArg some hlies, hside⟩
    | fork f =>
      obtain ⟨a, -, hf⟩ := (hc.legal id n hn).fits _ hmem
      exact ⟨c, d, Fork.Lies.span? hlies hf hlen hd, hside⟩
    | child x =>
      obtain ⟨hlt, hsize⟩ := ha.child_bounds hn (Node.child_mem_children hmem)
      obtain ⟨n', hn'⟩ := node?_of_lt hsize
      obtain ⟨c', d', hspan, hside'⟩ := ih hn' (ha.filled _ n' hn' (by omega)) (by omega) hsize
      exact ⟨c', d', hspan, by rw [hside', hlies.1, hlies.2, hside]⟩

/-- **An instance covers the stretch that the layout says.** -/
theorem span?_eq (hn : t.node? id = some n) (hne : n.entries ≠ []) :
    t.span? id = some (stretch text (m.start id) (m.stop id)) := by
  obtain ⟨c, d, hfirst, rfl⟩ := h.spanWithin_eq ha hc hlen hstop (·.entries.getLast?) (fun c _ => c)
    (fun {n a b} hstack => by
      obtain ⟨e, he⟩ := Option.isSome_iff_exists.mp (List.getLast?_isSome.mpr hstack.ne_nil)
      obtain ⟨c, hcb, -, hlies⟩ := hstack.getLast? he
      exact ⟨e, List.mem_of_getLast? he, a, c, he, hcb, hlies, rfl⟩) hn hne (Nat.sub_le t.size id)
  obtain ⟨c', d', hlast, rfl⟩ := h.spanWithin_eq ha hc hlen hstop (·.last?) (fun _ d => d)
    (fun {n a b} hstack => by
      obtain ⟨e, rest, hentries⟩ := List.exists_cons_of_ne_nil hstack.ne_nil
      rw [hentries] at hstack
      obtain ⟨c, -, -, hlies⟩ := hstack.head
      exact ⟨e, by rw [hentries]; exact List.mem_cons_self, c, b, by rw [Node.last?, hentries, List.head?_cons], le_rfl,
        hlies, rfl⟩) hn hne (Nat.sub_le t.size id)
  simp only [span?, start?, stop?, hfirst, hlast, Option.map_some, Option.bind_some, Option.bind_eq_bind,
    Option.pure_def]
  rfl

theorem child_span? {x : Child} {c d : Nat} (hn : t.node? id = some n) (hx : x.node ∈ n.children) (hlies : x.Lies m c d) :
    t.span? x.node = some (stretch text c d) := by
  obtain ⟨hlt, hsize⟩ := ha.child_bounds hn hx
  obtain ⟨n', hn'⟩ := node?_of_lt hsize
  rw [h.span?_eq ha hc hlen hstop hn' (ha.filled _ n' hn' (by omega)), hlies.1, hlies.2]

theorem inOrder : t.InOrder := by
  intro (id : Nat) n hn
  have hid : id < t.size := lt_size_of_node? hn
  have hglobals : ∃ globals, n.globals.reverse.map (t.span? ·.node) = globals.map some ∧ Span.InOrder globals := by
    by_cases hne : n.globals = []
    · exact ⟨[], by simp [hne], by simp, List.Pairwise.nil⟩
    · obtain ⟨a, b, hstack⟩ := h.globals id n hn hne
      -- the stack of a global rule ends where its latest instance does
      have hb : b ≤ text.length := by
        obtain ⟨last, rest, hlast⟩ := List.exists_cons_of_ne_nil hne
        have hchild : last.node ∈ n.children := Node.global_mem_children (by rw [hlast]; exact List.mem_cons_self)
        rw [hlast] at hstack
        obtain ⟨c, -, -, hlies⟩ := hstack.head
        rw [← hlies.2]
        exact hstop _ (ha.child_bounds hn hchild).2
      obtain ⟨globals, hmap, horder, -, -⟩ := hstack.spans (t.span? ·.node) hlen hb fun x hx c d _ hlies =>
        h.child_span? ha hc hlen hstop hn (Node.global_mem_children hx) hlies
      exact ⟨globals, hmap, horder⟩
  obtain ⟨globals, hmap, horder⟩ := hglobals
  by_cases hne : n.entries = []
  · have hspan : t.span? id = none := by
      obtain ⟨size, hsize⟩ : ∃ size, t.size = size + 1 := ⟨t.size - 1, by omega⟩
      simp [span?, start?, hsize, spanWithin, hn, hne]
    exact ⟨[], globals, by simp [Node.inOrder, hne], hmap, ⟨by simp, List.Pairwise.nil⟩, horder, hspan, by simp⟩
  · have hwhole := h.span?_eq ha hc hlen hstop hn hne
    obtain ⟨spans, hentries, hordered, hhull, hwithin⟩ := (h.entries id n hn hne).spans t.extent? hlen (hstop id hid)
      fun e he c d hd hlies => by
        cases e with
        | capture capture => exact congrArg some hlies
        | fork f =>
          obtain ⟨a, -, hf⟩ := (hc.legal id n hn).fits _ he
          exact Fork.Lies.span? hlies hf hlen hd
        | child x => exact h.child_span? ha hc hlen hstop hn (Node.child_mem_children he) hlies
    refine ⟨spans, globals, hentries, hmap, hordered, horder, hwhole.trans hhull.symm, fun s hs whole hspan => ?_⟩
    cases hwhole.symm.trans hspan
    exact hwithin s hs

end Laid

end Tree

end PhraseTree
