import PhraseTree.Proofs.Tree.Nesting
import Mathlib.Order.Bounds.Basic

/-!
# Which rules accept a phrase

`g.Accepts p rule` says, without any order and without a tree, that a new instance of the rule can take `p`.  Where
candidates are tried below an instance, one is found if and only if some candidate accepts the phrase, be the tree and
the instance what they may; and what is found is the first at every level.

* `Grammar.Accepts`, `Part.Accepts`, `Path.Accepts` — rules, parts and paths that can begin with a phrase;
* `g.AcceptsAt p rule i` — the part at place `i` can, behind optional parts only;
* `g.Descends p t deepest id rule` — from the new instance `id` of `rule` down to `deepest`, every instance has a single
  entry, at the least place that accepts, and its child is of the first candidate that accepts;
* `Grammar.sprout_isSome`, `Trial.tryRules_accepts`: what searches and attempts find.
-/

namespace PhraseTree

/-- The first element of a list with a property. -/
def IsFirst {α : Type} (P : α → Prop) (l : List α) (x : α) : Prop :=
  ∃ earlier later, l = earlier ++ x :: later ∧ P x ∧ ∀ y ∈ earlier, ¬ P y

/-! ### What accepts a phrase -/

/-- A path begins with the phrase at some part, behind optional ones only. -/
def Path.Accepts (path : Path) (p : Phrase) : Prop :=
  ∃ (i : Nat) (part : SimplePart),
    path[i]? = some part ∧ Skips SimplePart.isOptional path 0 i ∧ (part.begin? i p).isSome = true

/-- **A rule accepts a phrase** if one of its parts does, behind optional ones only: a simple part that begins with it,
alternatives with a path that does, or a rule choice with a candidate that accepts it. -/
inductive Grammar.Accepts (g : Grammar) (p : Phrase) : RuleId → Prop
  | simple {rule : RuleId} {i : Nat} {part : SimplePart} (hat : (g.parts rule)[i]? = some (.simple part))
      (hskip : Skips Part.isOptional (g.parts rule) 0 i) (hbegin : (part.begin? i p).isSome = true) : g.Accepts p rule
  | alternatives {rule : RuleId} {i : Nat} {a : Alternatives} {path : Path}
      (hat : (g.parts rule)[i]? = some (.alternatives a)) (hskip : Skips Part.isOptional (g.parts rule) 0 i)
      (hmem : path ∈ a.paths) (hpath : path.Accepts p) : g.Accepts p rule
  | choice {rule candidate : RuleId} {i : Nat} {c : RuleChoice RuleId} (hat : (g.parts rule)[i]? = some (.choice c))
      (hskip : Skips Part.isOptional (g.parts rule) 0 i) (hmem : candidate ∈ c.candidates)
      (h : g.Accepts p candidate) : g.Accepts p rule

/-- The part at place `i` can begin with the phrase. -/
def Part.Accepts (g : Grammar) (p : Phrase) (i : Nat) : Part RuleId → Prop
  | .simple part => (part.begin? i p).isSome = true
  | .alternatives a => ∃ path ∈ a.paths, path.Accepts p
  | .choice c => ∃ candidate ∈ c.candidates, g.Accepts p candidate

/-- The rule accepts the phrase at place `i`. -/
def Grammar.AcceptsAt (g : Grammar) (p : Phrase) (rule : RuleId) (i : Nat) : Prop :=
  ∃ part, (g.parts rule)[i]? = some part ∧ Skips Part.isOptional (g.parts rule) 0 i ∧ part.Accepts g p i

/-! ### Paths -/

section Paths

variable {p : Phrase} {path : Path} {i : Nat}

theorem SimplePart.begin?_isSome_congr (part : SimplePart) (p : Phrase) (i j : Nat) :
    (part.begin? i p).isSome = (part.begin? j p).isSome := by
  cases part <;> simp only [begin?, Modifiers.begin?, TextPart.begin?] <;> split <;> rfl

theorem Path.begin?_isSome (h : path.Accepts p) : (path.begin? p i).isSome = true := by
  obtain ⟨k, part, hat, hskip, hbegin⟩ := h
  induction path generalizing i k with
  | nil => cases hat
  | cons first rest ih =>
    unfold begin?
    split
    · rfl
    · next hnone =>
      cases k with
      | zero =>
        cases hat
        rw [SimplePart.begin?_isSome_congr _ _ _ i, hnone] at hbegin
        cases hbegin
      | succ k =>
        obtain ⟨ho, hskip⟩ := skips_cons_succ.mp hskip
        rw [if_pos ho]
        exact ih k hat hskip (by rwa [SimplePart.begin?_isSome_congr _ _ _ (k + 1)])

theorem Path.take?_isSome : (path.take? p none).isSome = true ↔ path.Accepts p := by
  constructor
  · intro h
    obtain ⟨c, hc⟩ := Option.isSome_iff_exists.mp h
    obtain ⟨-, hskip, part, hat, hbegin⟩ := Path.begin?_spec hc List.drop_zero
    exact ⟨c.part, part, hat, hskip, by rw [hbegin]; rfl⟩
  · exact fun h => begin?_isSome h

theorem Alternatives.begin?_isSome {a : Alternatives} :
    (a.begin? i p).isSome = true ↔ ∃ path ∈ a.paths, path.Accepts p := by
  rw [begin?, Fork.of?_isSome]
  constructor
  · rintro ⟨b, hb⟩
    obtain ⟨⟨path, k⟩, hmem, hbranch⟩ := List.mem_filterMap.mp hb
    obtain ⟨c, hc, -⟩ := Option.map_eq_some_iff.mp hbranch
    exact ⟨path, List.fst_mem_of_mem_zipIdx hmem, Path.take?_isSome.mp (by rw [hc]; rfl)⟩
  · rintro ⟨path, hmem, hpath⟩
    obtain ⟨k, hat⟩ := List.mem_iff_getElem?.mp hmem
    obtain ⟨c, hc⟩ := Option.isSome_iff_exists.mp (Path.take?_isSome.mpr hpath)
    exact ⟨_, List.mem_filterMap.mpr ⟨(path, k), List.mk_mem_zipIdx_iff_getElem?.mpr hat,
      Option.map_eq_some_iff.mpr ⟨c, hc, rfl⟩⟩⟩

end Paths

/-! ### Searches -/

section Searches

variable {g : Grammar} {p : Phrase} {inside : RuleId → Search Growth} {i : Nat} {rule : RuleId} {growth : Growth}

theorem firstOf_isFirst {rules : List RuleId} (h : (firstOf inside rules).found? = some (rule, growth)) :
    IsFirst (fun r => (inside r).found?.isSome = true) rules rule ∧ (inside rule).found? = some growth := by
  induction rules with
  | nil => cases h
  | cons r rest ih =>
    simp only [firstOf, Search.orElse_eq_some, Search.found?_map, Search.found?_inInstance,
      Option.map_eq_some_iff] at h
    rcases h with ⟨growth', hg, he⟩ | ⟨hnone, hrest⟩
    · cases he
      exact ⟨⟨[], rest, rfl, by simp [hg], by simp⟩, hg⟩
    · obtain ⟨⟨earlier, later, rfl, hsome, hrefused⟩, hin⟩ := ih hrest
      refine ⟨⟨r :: earlier, later, rfl, hsome, fun y hy => ?_⟩, hin⟩
      rcases List.mem_cons.mp hy with rfl | hy
      · simpa using hnone
      · exact hrefused y hy

theorem firstOf_isSome {rules : List RuleId} :
    (firstOf inside rules).found?.isSome = true ↔ ∃ rule ∈ rules, (inside rule).found?.isSome = true := by
  induction rules with
  | nil => simp [firstOf]
  | cons r rest ih => cases hr : (inside r).found? <;> simp [firstOf, ih, hr]

/-- What is found in a list of parts is found in the first part in which anything is, behind optional ones only. -/
theorem growFrom_least {parts : List (Part RuleId)} (h : (growFrom inside p i parts).found? = some growth) :
    ∃ k part, parts[k]? = some part ∧ Skips Part.isOptional parts 0 k ∧
      (growAt inside p (i + k) part).found? = some growth ∧
      ∀ j part', j < k → parts[j]? = some part' → (growAt inside p (i + j) part').found? = none := by
  induction parts generalizing i with
  | nil => cases h
  | cons first rest ih =>
    simp only [growFrom, Search.orElse_eq_some] at h
    rcases h with h | ⟨hnone, h⟩
    · exact ⟨0, first, rfl, Skips.refl, h, by simp⟩
    · split at h
      · next ho =>
        obtain ⟨k, part, hat, hskip, hfound, hearlier⟩ := ih h
        refine ⟨k + 1, part, hat, skips_cons_succ.mpr ⟨ho, hskip⟩, ?_, fun j part' hj hat' => ?_⟩
        · rwa [Nat.add_right_comm, Nat.add_assoc] at hfound
        · cases j with
          | zero =>
            cases hat'
            exact hnone
          | succ j =>
            rw [show i + (j + 1) = i + 1 + j by omega]
            exact hearlier j part' (Nat.lt_of_succ_lt_succ hj) hat'
      · cases h

theorem growFrom_isSome {parts : List (Part RuleId)} {k : Nat} {part : Part RuleId} (hat : parts[k]? = some part)
    (hskip : Skips Part.isOptional parts 0 k) (h : (growAt inside p (i + k) part).found?.isSome = true) :
    (growFrom inside p i parts).found?.isSome = true := by
  induction parts generalizing i k with
  | nil => cases hat
  | cons first rest ih =>
    rw [growFrom, Search.found?_orElse]
    cases hfirst : (growAt inside p i first).found? with
    | some growth => rfl
    | none =>
      cases k with
      | zero =>
        cases hat
        rw [Nat.add_zero, hfirst] at h
        cases h
      | succ k =>
        obtain ⟨ho, hskip⟩ := skips_cons_succ.mp hskip
        rw [if_pos ho]
        exact ih hat hskip (by rwa [show i + 1 + k = i + (k + 1) by omega])

theorem Grammar.Accepts.found (h : g.Accepts p rule) : (g.sprout p rule).found?.isSome = true := by
  induction h with
  | simple hat hskip hbegin =>
    rw [Grammar.sprout_eq]
    refine growFrom_isSome hat hskip ?_
    rw [Nat.zero_add]
    simpa [growAt] using hbegin
  | alternatives hat hskip hmem hpath =>
    rw [Grammar.sprout_eq]
    refine growFrom_isSome hat hskip ?_
    rw [Nat.zero_add]
    simpa [growAt] using Alternatives.begin?_isSome.mpr ⟨_, hmem, hpath⟩
  | choice hat hskip hmem _ ih =>
    rw [Grammar.sprout_eq]
    refine growFrom_isSome hat hskip ?_
    simpa [growAt] using firstOf_isSome.mpr ⟨_, hmem, ih⟩

theorem Grows.accepts (h : Grows g p (g.parts rule) 0 growth) : g.Accepts p rule := by
  induction growth generalizing rule with
  | capture c =>
    cases h with
    | capture _ hskip hat hbegin => exact .simple hat hskip (by rw [hbegin]; rfl)
  | fork f =>
    cases h with
    | fork _ hskip hat hbegin =>
      obtain ⟨path, hmem, hpath⟩ := Alternatives.begin?_isSome.mp (by rw [hbegin]; rfl)
      exact .alternatives hat hskip hmem hpath
  | child slot rule growth ih =>
    cases h with
    | child _ hskip hat hmem hgrows => exact .choice hat hskip hmem (ih hgrows)

/-- **A search in a new instance finds something if and only if the rule accepts the phrase.** -/
theorem Grammar.sprout_isSome : (g.sprout p rule).found?.isSome = true ↔ g.Accepts p rule := by
  constructor
  · intro h
    obtain ⟨growth, hg⟩ := Option.isSome_iff_exists.mp h
    exact (sprout_grows hg).accepts
  · exact fun h => h.found

instance (g : Grammar) (p : Phrase) (rule : RuleId) : Decidable (g.Accepts p rule) :=
  decidable_of_iff _ Grammar.sprout_isSome

theorem growAt_isSome {part : Part RuleId} :
    (growAt (g.sprout p) p i part).found?.isSome = true ↔ part.Accepts g p i := by
  cases part with
  | simple part => simp [growAt, Part.Accepts]
  | alternatives a => simpa [growAt, Part.Accepts] using Alternatives.begin?_isSome
  | choice c => simp [growAt, Part.Accepts, firstOf_isSome, Grammar.sprout_isSome]

/-- What a search finds in a new instance is found at the least place that accepts the phrase. -/
theorem Grammar.sprout_least (h : (g.sprout p rule).found? = some growth) :
    ∃ k part, (g.parts rule)[k]? = some part ∧ IsLeast {i | g.AcceptsAt p rule i} k ∧
      (growAt (g.sprout p) p k part).found? = some growth := by
  rw [Grammar.sprout_eq] at h
  obtain ⟨k, part, hat, hskip, hfound, hearlier⟩ := growFrom_least h
  rw [Nat.zero_add] at hfound
  refine ⟨k, part, hat, ⟨⟨part, hat, hskip, growAt_isSome.mp (by rw [hfound]; rfl)⟩, ?_⟩, hfound⟩
  rintro j ⟨part', hat', -, haccepts⟩
  by_contra hlt
  have hnone := hearlier j part' (Nat.lt_of_not_le hlt) hat'
  have hsome := growAt_isSome.mpr haccepts
  rw [Nat.zero_add] at hnone
  rw [hnone] at hsome
  cases hsome

theorem firstOf_sprout {rules : List RuleId} (h : (firstOf (g.sprout p) rules).found? = some (rule, growth)) :
    IsFirst (g.Accepts p) rules rule ∧ (g.sprout p rule).found? = some growth := by
  obtain ⟨hfirst, hfound⟩ := firstOf_isFirst h
  simp only [Grammar.sprout_isSome] at hfirst
  exact ⟨hfirst, hfound⟩

end Searches

/-! ### Lines of new instances -/

/-- **A line of first choices**, from the new instance `id` of `rule` down to `deepest`.  Every instance has a single
entry, at the least place that accepts the phrase.  The entry of the last one is what took the phrase; that of any other
is a child of the first candidate that accepts it. -/
inductive Grammar.Descends (g : Grammar) (p : Phrase) (t : Tree) (deepest : NodeId) : NodeId → RuleId → Prop
  | capture {rule : RuleId} {parent? : Option NodeId} {part : SimplePart} {c : Capture}
      (hnode : t.node? deepest = some ⟨rule, parent?, [.capture c], []⟩)
      (hleast : IsLeast {i | g.AcceptsAt p rule i} c.part) (hat : (g.parts rule)[c.part]? = some (.simple part))
      (hbegin : part.begin? c.part p = some c) : g.Descends p t deepest deepest rule
  | fork {rule : RuleId} {parent? : Option NodeId} {a : Alternatives} {f : Fork}
      (hnode : t.node? deepest = some ⟨rule, parent?, [.fork f], []⟩)
      (hleast : IsLeast {i | g.AcceptsAt p rule i} f.part) (hat : (g.parts rule)[f.part]? = some (.alternatives a))
      (hbegin : a.begin? f.part p = some f) : g.Descends p t deepest deepest rule
  | child {id : NodeId} {rule candidate : RuleId} {parent? : Option NodeId} {c : RuleChoice RuleId} {x : Child}
      (hnode : t.node? id = some ⟨rule, parent?, [.child x], []⟩)
      (hleast : IsLeast {i | g.AcceptsAt p rule i} x.part) (hat : (g.parts rule)[x.part]? = some (.choice c))
      (hslot : x.toSlot = c.slot x.part) (hfirst : IsFirst (g.Accepts p) c.candidates candidate)
      (hdeepest : x.deepest = deepest) (hparent : t.parent? x.node = some id)
      (h : g.Descends p t deepest x.node candidate) : g.Descends p t deepest id rule

section Lines

variable {g : Grammar} {p : Phrase} {rule : RuleId} {growth : Growth}

/-- A line of new instances, where it stands in a tree, is a line of first choices. -/
theorem Grammar.descends_of_found {t : Tree} {base : Nat} {parent? : Option NodeId}
    (h : (g.sprout p rule).found? = some growth)
    (hnode : t.node? base = some ⟨rule, parent?, [growth.entry (base + 1)], []⟩)
    (hnodes : ∀ k n, (growth.nodes base (base + 1))[k]? = some n → t.node? (base + 1 + k) = some n) :
    g.Descends p t (base + growth.depth) base rule := by
  obtain ⟨k, part, hat, hleast, hfound⟩ := g.sprout_least h
  induction growth generalizing rule base parent? k part with
  | capture c =>
    cases part with
    | simple part =>
      obtain ⟨c', hbegin, he⟩ := Option.map_eq_some_iff.mp hfound
      cases he
      have hpart := SimplePart.begin?_part hbegin
      subst hpart
      exact .capture hnode hleast hat hbegin
    | alternatives | choice => simp [growAt] at hfound
  | fork f =>
    cases part with
    | alternatives a =>
      obtain ⟨f', hbegin, he⟩ := Option.map_eq_some_iff.mp hfound
      cases he
      have hpart := (Alternatives.begin?_spec hbegin).1
      subst hpart
      exact .fork hnode hleast hat hbegin
    | simple | choice => simp [growAt] at hfound
  | child slot candidate growth ih =>
    cases part with
    | choice c =>
      obtain ⟨⟨candidate', growth'⟩, hfirst, he⟩ := Option.map_eq_some_iff.mp hfound
      cases he
      obtain ⟨hfirst, hsprout⟩ := firstOf_sprout hfirst
      obtain ⟨k', part', hat', hleast', hfound'⟩ := g.sprout_least hsprout
      have hchild := hnodes 0 _ rfl
      have hnodes' : ∀ j n, (growth.nodes (base + 1) (base + 1 + 1))[j]? = some n →
          t.node? (base + 1 + 1 + j) = some n := by
        intro j n hn
        rw [show base + 1 + 1 + j = base + 1 + (j + 1) by omega]
        exact hnodes (j + 1) n hn
      have hbelow := ih hsprout hchild hnodes' k' part' hat' hleast' hfound'
      have hdeepest : base + (Growth.child (c.slot k) candidate growth).depth = base + 1 + growth.depth := by
        rw [Growth.depth]
        omega
      rw [hdeepest]
      exact .child hnode hleast hat rfl hfirst rfl (by rw [Tree.parent?, hchild]; rfl) hbelow
    | simple | alternatives => simp [growAt] at hfound

end Lines

/-! ### Attempts in place -/

namespace Trial

section Hang

variable {t : Tree} {rule : RuleId} {growth : Growth} {parent : Nat}

theorem node?_hang_of_lt {id : Nat} (h : id < t.size) (x : RuleId × Growth) :
    (hang parent t x).1.node? id = t.node? id := Array.getElem?_append_left h

theorem node?_hang_add (t : Tree) (parent : Nat) (rule : RuleId) (growth : Growth) (k : Nat) :
    (hang parent t (rule, growth)).1.node? (t.size + k) =
      (⟨rule, some parent, [growth.entry (t.size + 1)], []⟩ :: growth.nodes t.size (t.size + 1))[k]? := by
  simp only [hang, Tree.node?, Tree.size]
  rw [Array.getElem?_append_right (Nat.le_add_right _ _), Nat.add_sub_cancel_left, List.getElem?_toArray]

/-- A new instance with its growth is a line of first choices. -/
theorem descends_hang {g : Grammar} {p : Phrase} (h : (g.sprout p rule).found? = some growth) (t : Tree)
    (parent : Nat) : g.Descends p (hang parent t (rule, growth)).1 (t.size + growth.depth) t.size rule := by
  refine Grammar.descends_of_found h (node?_hang_add t parent rule growth 0) fun k n hn => ?_
  have hnode := node?_hang_add t parent rule growth (k + 1)
  rw [List.getElem?_cons_succ, hn] at hnode
  rwa [Nat.add_assoc, Nat.add_comm 1 k]

end Hang

/-- **Candidates are tried in order, and the first that accepts the phrase is taken, at every level.**

Trying candidates succeeds if and only if one of them accepts the phrase, whatever the tree and the instance they are
tried below.  The new instance stands at the end of the tree, which is otherwise as before, and is of the first candidate
that accepts the phrase; from it a line of first choices leads down to the instance that took the phrase, which is the
last.  Searches without a tree find the same. -/
theorem tryRules_accepts (g : Grammar) (p : Phrase) (candidates : List RuleId) :
    ((firstOf (g.sprout p) candidates).found?.isSome = true ↔ ∃ rule ∈ candidates, g.Accepts p rule) ∧
      ∀ (w : Trial) (parent : Nat),
        tryRules (offer g p g.size) parent candidates w =
          w.carry (firstOf (g.sprout p) candidates) (·.2.depth + 1) (hang parent) ∧
        ((tryRules (offer g p g.size) parent candidates w).1.isSome = true ↔
          ∃ rule ∈ candidates, g.Accepts p rule) ∧
        ∀ child deepest w', tryRules (offer g p g.size) parent candidates w = (some (child, deepest), w') →
          child = w.tree.size ∧ w'.tree.size = deepest + 1 ∧
            (∀ id < w.tree.size, w'.tree.node? id = w.tree.node? id) ∧
            w'.tree.parent? child = some parent ∧
            ∃ rule, IsFirst (g.Accepts p) candidates rule ∧ g.Descends p w'.tree deepest child rule := by
  have hsearch : (firstOf (g.sprout p) candidates).found?.isSome = true ↔ ∃ rule ∈ candidates, g.Accepts p rule := by
    rw [firstOf_isSome]
    simp only [Grammar.sprout_isSome]
  refine ⟨hsearch, fun w parent => ?_⟩
  have heq : tryRules (offer g p g.size) parent candidates w =
      w.carry (firstOf (g.sprout p) candidates) (·.2.depth + 1) (hang parent) :=
    tryRules_eq (offer_carries g p g.size) candidates w
  rw [heq]
  cases hfound : (firstOf (g.sprout p) candidates).found? with
  | none =>
    rw [hfound] at hsearch
    rw [carry_of_none hfound]
    exact ⟨rfl, hsearch, fun child deepest w' h => by cases h⟩
  | some x =>
    obtain ⟨rule, growth⟩ := x
    obtain ⟨hfirst, hsprout⟩ := firstOf_sprout hfound
    rw [hfound] at hsearch
    rw [carry_of_found hfound]
    refine ⟨rfl, hsearch, fun child deepest w' h => ?_⟩
    cases h
    refine ⟨rfl, ?_, fun id hid => node?_hang_of_lt hid _, ?_, rule, hfirst, descends_hang hsprout w.tree parent⟩
    · simp [hang, Tree.size, Growth.length_nodes, Nat.add_assoc]
    · have hchild : (hang parent w.tree (rule, growth)).1.node? w.tree.size = _ :=
        node?_hang_add w.tree parent rule growth 0
      rw [Tree.parent?, hchild]
      rfl

end Trial

namespace Preference

/-- Numbers with a sign, and names that a number may stand before. -/
def rules : List (Rule RuleId) := [⟨topLevelName, [.choice { key := "items", candidates := [1, 2] }]⟩,
  ⟨"Signed", [.simple (.modifiers { phrases := ["-"], optional := true }), .simple (.number "value")]⟩,
  ⟨"Named", [.choice { key := "sign", candidates := [1], optional := true }, .simple (.identifier "name")]⟩]

theorem sound_rules : Sound rules { key := "global", candidates := [], optional := true } {} := by
  constructor <;> decide +kernel

def grammar : Grammar := ⟨rules, _, _, sound_rules⟩

/-- A word, which is no number and no sign. -/
def word : Phrase := .single .word .start 'a'

/-- A word is taken by a named item, which has no number before it. -/
theorem named_preferred : (∃ rule ∈ [1, 2], grammar.Accepts word rule) ∧ ¬ grammar.Accepts word 1 ∧
    ∃ w', Trial.tryRules (Trial.offer grammar word grammar.size) 0 [1, 2] ⟨.root, 0, 0⟩ = (some (1, 1), w') ∧
      w'.tree.size = 2 ∧ w'.tree.parent? 1 = some 0 ∧
      ∃ rule, IsFirst (grammar.Accepts word) [1, 2] rule ∧ grammar.Descends word w'.tree 1 1 rule := by
  obtain ⟨-, htried⟩ := Trial.tryRules_accepts grammar word [1, 2]
  obtain ⟨-, hiff, hfound⟩ := htried ⟨.root, 0, 0⟩ 0
  have htaken : (Trial.tryRules (Trial.offer grammar word grammar.size) 0 [1, 2] ⟨.root, 0, 0⟩).1 = some (1, 1) := by
    decide +kernel
  have hpair := Prod.ext (y := (some (1, 1), (Trial.tryRules (Trial.offer grammar word grammar.size) 0 [1, 2]
    ⟨.root, 0, 0⟩).2)) htaken rfl
  obtain ⟨-, hsize, -, hparent, hline⟩ := hfound 1 1 _ hpair
  exact ⟨hiff.mp (by rw [htaken]; rfl), by decide +kernel, _, hpair, hsize, hparent, hline⟩

end Preference

end PhraseTree
