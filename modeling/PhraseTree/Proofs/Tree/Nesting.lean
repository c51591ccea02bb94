import PhraseTree.Proofs.Grammar.Leading
import PhraseTree.Proofs.Tree.Attempt

/-!
# Nested attempts

Attempts and searches are nested at most as deep as a bound says.  As many levels as there are rules are enough: at the
bound nothing is asked, so it makes no difference what would be answered there.

* `Trial.answer g p ask` — one level of an offer, in which new instances are asked by `ask`; `Trial.offer` is this level
  again and again (`Trial.offer_succ`);
* `Trial.Nests g t line w` — new instances of the rules of `line` are nested in each other at the end of `t`;
* `Trial.answer_congr`, `Trial.Nests.answer_congr`: an offer asks nested instances only, one more than there were;
* `Trial.Nests.nodup`, `Trial.Nests.length_le`, `Trial.Nests.size_eq`: no rule occurs twice in a nest, which bounds the
  nesting and the tree;
* `Trial.tryRules_iterate`, `Trial.answer_iterate`, `Grammar.sprout_iterate`: the answers at the bound do not matter.
-/

namespace PhraseTree

variable {g : Grammar} {p : Phrase}

/-! ### Searches -/

section Searches

variable {inside inside' : RuleId → Search Growth} {i levels : Nat} {line : List RuleId} {a : RuleId}

theorem firstOf_congr {rules : List RuleId} (h : ∀ rule ∈ rules, inside rule = inside' rule) :
    firstOf inside rules = firstOf inside' rules := by
  induction rules with
  | nil => rfl
  | cons rule rest ih =>
    rw [firstOf, firstOf, h rule List.mem_cons_self, ih fun r hr => h r (List.mem_cons_of_mem rule hr)]

theorem growAt_congr {part : Part RuleId} (h : ∀ rule ∈ part.candidates, inside rule = inside' rule) :
    growAt inside p i part = growAt inside' p i part := by
  cases part with
  | simple | alternatives => rfl
  | choice c => exact congrArg (Search.map _) (firstOf_congr h)

theorem growFrom_congr {parts : List (Part RuleId)} (h : ∀ rule ∈ Leading.of parts, inside rule = inside' rule) :
    growFrom inside p i parts = growFrom inside' p i parts := by
  induction parts generalizing i with
  | nil => rfl
  | cons part rest ih =>
    rw [growFrom, growFrom, growAt_congr fun rule hr => h rule (Leading.mem_of_cons.mpr (Or.inl hr))]
    split
    · next ho => rw [ih fun rule hr => h rule (Leading.mem_of_cons.mpr (Or.inr ⟨ho, hr⟩))]
    · rfl

/-- One level of the search in a new instance, where its candidates are looked into by `inside`. -/
def growWith (g : Grammar) (p : Phrase) (inside : RuleId → Search Growth) (rule : RuleId) : Search Growth :=
  growFrom inside p 0 (g.parts rule)

/-- Below a line of rules that leaves no level, nothing is looked into. -/
theorem instantiate_iterate_line (stop : RuleId → Search Growth) (h : (a :: line).IsChain fun b a => g.LeadsTo a b)
    (hlevels : g.size < (a :: line).length + levels) : (growWith g p)^[levels] stop a = instantiate g p levels a := by
  induction levels generalizing a line with
  | zero =>
    have hle := Grammar.length_le_size (List.isChain_reverse.mpr h)
    rw [List.length_reverse] at hle
    omega
  | succ levels ih =>
    rw [Function.iterate_succ_apply']
    refine growFrom_congr fun b hb => ih (List.isChain_cons_cons.mpr ⟨hb, h⟩) ?_
    simp only [List.length_cons] at hlevels ⊢
    omega

/-- **What a search would find at the bound does not matter**: nothing is looked into there. -/
theorem Grammar.sprout_iterate (stop : RuleId → Search Growth) (hlevels : g.size ≤ levels) :
    (growWith g p)^[levels] stop = g.sprout p := by
  have henough : ∀ {levels : Nat}, g.size ≤ levels → ∀ stop : RuleId → Search Growth,
      (growWith g p)^[levels] stop = instantiate g p levels := by
    intro levels hlevels stop
    funext rule
    have hline : [rule].IsChain fun b a => g.LeadsTo a b := List.isChain_singleton rule
    refine instantiate_iterate_line stop hline ?_
    simp only [List.length_cons, List.length_nil]
    omega
  -- with more levels, those beyond the bound only change what stands at the bound
  obtain ⟨more, rfl⟩ := Nat.exists_eq_add_of_le hlevels
  rw [Function.iterate_add_apply, henough le_rfl]
  rfl

/-- **The searches in new instances are what their recursion says**, with no bound. -/
theorem Grammar.sprout_eq (g : Grammar) (p : Phrase) (rule : RuleId) :
    g.sprout p rule = growFrom (g.sprout p) p 0 (g.parts rule) := by
  have h := Grammar.sprout_iterate (g := g) (p := p) (fun _ => .fail) (Nat.le_succ g.size)
  rw [Function.iterate_succ_apply', Grammar.sprout_iterate _ le_rfl] at h
  exact (congrFun h rule).symm

end Searches

/-! ### Lines of new instances -/

section Lines

variable {growth : Growth} {parts : List (Part RuleId)} {i : Nat} {rule : RuleId}

theorem Growth.length_rules (growth : Growth) : growth.rules.length = growth.depth := by
  induction growth with
  | capture | fork => rfl
  | child slot rule growth ih => rw [rules, List.length_cons, ih, depth]

theorem Grows.mem_leading (h : Grows g p parts 0 growth) : ∀ b ∈ growth.rules.head?, b ∈ Leading.of parts := by
  cases h with
  | capture | fork => simp [Growth.rules]
  | child hle hskip hat hmem hgrows =>
    intro b hb
    cases hb
    exact Leading.mem_of.mpr ⟨_, _, hat, hskip, hmem⟩

theorem Grows.isChain (h : Grows g p parts i growth) : growth.rules.IsChain g.LeadsTo := by
  induction h with
  | capture | fork => exact List.isChain_nil
  | child hle hskip hat hmem hgrows ih => exact List.isChain_cons.mpr ⟨hgrows.mem_leading, ih⟩

theorem Grows.depth_le (h : Grows g p parts i growth) : growth.depth ≤ g.size := by
  rw [← growth.length_rules]
  exact Grammar.length_le_size h.isChain

theorem Grows.depth_lt (h : Grows g p (g.parts rule) 0 growth) : growth.depth + 1 ≤ g.size := by
  have hchain : (rule :: growth.rules).IsChain g.LeadsTo := List.isChain_cons.mpr ⟨h.mem_leading, h.isChain⟩
  have hle := Grammar.length_le_size hchain
  rwa [List.length_cons, growth.length_rules] at hle

end Lines

namespace Trial

/-! ### Attempts in place -/

section Congr

variable {ask ask' : Trial → Nat → Option Nat × Trial} {id parent i : Nat} {w w' : Trial}
  (hask : Restores ask)

include hask

theorem tryRules_congr {rules : List RuleId} (h : ∀ rule ∈ rules, ∀ w₁ : Trial, w₁.tree = w.tree →
      ask (w₁.setUp rule parent) w₁.tree.size = ask' (w₁.setUp rule parent) w₁.tree.size) :
    tryRules ask parent rules w = tryRules ask' parent rules w := by
  induction rules generalizing w with
  | nil => rfl
  | cons rule rest ih =>
    simp only [tryRules]
    rw [← h rule List.mem_cons_self w rfl]
    split
    · rfl
    · next w₁ hrefused =>
      have hback : (w₁.giveUp w.tree.size).tree = w.tree := by rw [giveUp_eq (hask _ _ _ hrefused)]
      exact ih fun r hr w₂ hw₂ => h r (List.mem_cons_of_mem rule hr) w₂ (hw₂.trans hback)

theorem tryBelow_congr {rules : List RuleId} {put : Nat → Nat → Node → Node}
    (h : ∀ rule ∈ rules, ∀ w₁ : Trial, w₁.tree = w.tree →
      ask (w₁.setUp rule id) w₁.tree.size = ask' (w₁.setUp rule id) w₁.tree.size) :
    tryBelow ask id rules put w = tryBelow ask' id rules put w := by
  rw [tryBelow, tryBelow, tryRules_congr hask h]

theorem beginPart_congr {part : Part RuleId} (h : ∀ rule ∈ part.candidates, ∀ w₁ : Trial, w₁.tree = w.tree →
      ask (w₁.setUp rule id) w₁.tree.size = ask' (w₁.setUp rule id) w₁.tree.size) :
    beginPart ask p id i w part = beginPart ask' p id i w part := by
  cases part with
  | simple | alternatives => rfl
  | choice c => exact tryBelow_congr hask h

theorem beginFrom_congr {parts : List (Part RuleId)}
    (h : ∀ rule ∈ Leading.of parts, ∀ w₁ : Trial, w₁.tree = w.tree →
      ask (w₁.setUp rule id) w₁.tree.size = ask' (w₁.setUp rule id) w₁.tree.size) :
    beginFrom ask p id i parts w = beginFrom ask' p id i parts w := by
  induction parts generalizing i w with
  | nil => rfl
  | cons part rest ih =>
    simp only [beginFrom]
    rw [← beginPart_congr hask fun rule hr => h rule (Leading.mem_of_cons.mpr (Or.inl hr))]
    split
    · rfl
    · next w₁ hrefused =>
      have hback : w₁.tree = w.tree := beginPart_restores hask hrefused
      split
      · next ho =>
        exact ih fun rule hr w₂ hw₂ => h rule (Leading.mem_of_cons.mpr (Or.inr ⟨ho, hr⟩)) w₂ (hw₂.trans hback)
      · rfl

theorem extend_congr {part : Part RuleId} {last : Entry} (h : ∀ rule (w₁ : Trial), w₁.tree = w.tree →
      ask (w₁.setUp rule id) w₁.tree.size = ask' (w₁.setUp rule id) w₁.tree.size) :
    extend ask p id w part last = extend ask' p id w part last := by
  cases part with
  | simple | alternatives => cases last <;> rfl
  | choice c =>
    cases last with
    | capture | fork => rfl
    | child x =>
      simp only [extend, extendChoice]
      rw [tryBelow_congr hask fun rule _ => h rule]

end Congr

/-- **One level of an offer**: new instances are asked by `ask`. -/
def answer (g : Grammar) (p : Phrase) (ask : Trial → Nat → Option Nat × Trial) (w : Trial) (id : Nat) :
    Option Nat × Trial :=
  match w.tree.node? id with
  | none => (none, w)
  | some n =>
    let parts := g.parts n.rule
    let onward := fun i => beginFrom ask p id i (parts.drop i)
    match n.last? with
    | none => onward 0 w
    | some last =>
      if last.finished then onward (last.part + 1) w
      else
        match parts[last.part]? with
        | none => (none, w)
        | some part =>
          match extend ask p id w part last with
          | (.absorbed taker, w') => (some taker, w')
          | (.blocked, w') => (none, w')
          | (.rejected, w') => onward (last.part + 1) w'

theorem offer_succ (g : Grammar) (p : Phrase) (levels : Nat) :
    offer g p (levels + 1) = answer g p (offer g p levels) := rfl

theorem answer_setUp (g : Grammar) (p : Phrase) (ask : Trial → Nat → Option Nat × Trial) (w : Trial) (rule : RuleId)
    (parent : Nat) : answer g p ask (w.setUp rule parent) w.tree.size =
      beginFrom ask p w.tree.size 0 (g.parts rule) (w.setUp rule parent) := by
  have hnode : (w.setUp rule parent).tree.node? w.tree.size = some (.fresh rule (some parent)) :=
    Array.getElem?_push_size
  rw [answer, hnode]
  rfl

/-- **An offer asks new instances only**, each below the instance and at the end of the same tree. -/
theorem answer_congr {ask ask' : Trial → Nat → Option Nat × Trial} {w : Trial} {id : Nat} (hask : Restores ask)
    (h : ∀ rule (w₁ : Trial), w₁.tree = w.tree →
      ask (w₁.setUp rule id) w₁.tree.size = ask' (w₁.setUp rule id) w₁.tree.size) :
    answer g p ask w id = answer g p ask' w id := by
  have honward : ∀ (w₁ : Trial) i parts, w₁.tree = w.tree →
      beginFrom ask p id i parts w₁ = beginFrom ask' p id i parts w₁ := fun w₁ i parts hw₁ =>
    beginFrom_congr hask fun rule _ w₂ hw₂ => h rule w₂ (hw₂.trans hw₁)
  unfold answer
  dsimp only
  cases w.tree.node? id with
  | none => rfl
  | some n =>
    dsimp only
    cases n.last? with
    | none => exact honward w _ _ rfl
    | some last =>
      dsimp only
      rw [honward w _ _ rfl]
      split
      · rfl
      · cases (g.parts n.rule)[last.part]? with
        | none => rfl
        | some part =>
          dsimp only
          rw [← extend_congr hask h]
          split
          · rfl
          · rfl
          · next w₁ hrejected => exact honward w₁ _ _ (extend_restores hask hrejected (by simp))

/-! ### Nests -/

/-- **Nested new instances.**  At the end of `t` stand new instances of the rules of `line`, each below the one after
it, and the first one, which stands last, is about to be asked.  The outermost may be of any rule; the others are of
leading rules. -/
inductive Nests (g : Grammar) (t : Tree) : List RuleId → Trial → Prop
  | outermost {w : Trial} (rule : RuleId) (parent : Nat) (hw : w.tree = t) : Nests g t [rule] (w.setUp rule parent)
  | nested {line : List RuleId} {w w₁ : Trial} {a b : RuleId} (h : Nests g t (a :: line) w) (hlead : g.LeadsTo a b)
      (hw : w₁.tree = w.tree) : Nests g t (b :: a :: line) (w₁.setUp b (w.tree.size - 1))

section Nests

variable {t : Tree} {line : List RuleId} {w : Trial} {a : RuleId}

theorem size_setUp (w : Trial) (rule : RuleId) (parent : Nat) : (w.setUp rule parent).tree.size = w.tree.size + 1 :=
  Array.size_push _

theorem Nests.isChain (h : Nests g t line w) : line.IsChain fun b a => g.LeadsTo a b := by
  induction h with
  | outermost rule => exact List.isChain_singleton rule
  | nested _ hlead _ ih => exact List.isChain_cons_cons.mpr ⟨hlead, ih⟩

/-- **No rule occurs twice in a nest.** -/
theorem Nests.nodup (h : Nests g t line w) : line.Nodup :=
  List.nodup_reverse.mp (Grammar.nodup_of_isChain (List.isChain_reverse.mpr h.isChain))

/-- **A nest is at most as deep as there are rules.** -/
theorem Nests.length_le (h : Nests g t line w) : line.length ≤ g.size := by
  have hle := Grammar.length_le_size (List.isChain_reverse.mpr h.isChain)
  rwa [List.length_reverse] at hle

theorem Nests.size_eq (h : Nests g t line w) : w.tree.size = t.size + line.length := by
  induction h with
  | outermost rule parent hw =>
    rw [size_setUp, hw]
    rfl
  | nested _ _ hw ih =>
    rw [size_setUp, hw, ih]
    simp only [List.length_cons]
    omega

theorem Nests.setUp_eq (h : Nests g t (a :: line) w) :
    ∃ (w₀ : Trial) (parent : Nat), w = w₀.setUp a parent ∧ w₀.tree.size = w.tree.size - 1 := by
  cases h with
  | outermost rule parent hw => exact ⟨_, _, rfl, by rw [size_setUp]; rfl⟩
  | nested _ _ hw => exact ⟨_, _, rfl, by rw [size_setUp]; rfl⟩

/-- **The innermost instance of a nest asks only what it nests itself.** -/
theorem Nests.answer_congr {ask ask' : Trial → Nat → Option Nat × Trial} (h : Nests g t (a :: line) w)
    (hask : Restores ask)
    (heq : ∀ b w', Nests g t (b :: a :: line) w' → ask w' (w'.tree.size - 1) = ask' w' (w'.tree.size - 1)) :
    answer g p ask w (w.tree.size - 1) = answer g p ask' w (w.tree.size - 1) := by
  obtain ⟨w₀, parent, rfl, hsize⟩ := h.setUp_eq
  rw [← hsize, answer_setUp, answer_setUp]
  refine beginFrom_congr hask fun b hb w₁ hw₁ => ?_
  have hnest := heq b _ (h.nested hb hw₁)
  rw [← hsize, size_setUp] at hnest
  exact hnest

/-- In a nest that leaves no level, nothing is asked. -/
theorem Nests.iterate {levels : Nat} (stop : Trial → Nat → Option Nat × Trial) (h : Nests g t (a :: line) w)
    (hlevels : g.size < (a :: line).length + levels) :
    (answer g p)^[levels] stop w (w.tree.size - 1) = offer g p levels w (w.tree.size - 1) := by
  induction levels generalizing a line w with
  | zero =>
    have hle := h.length_le
    omega
  | succ levels ih =>
    rw [Function.iterate_succ_apply', offer_succ]
    refine (h.answer_congr (offer_restores g p levels) fun b w' hw' => (ih hw' ?_).symm).symm
    simp only [List.length_cons] at hlevels ⊢
    omega

end Nests

/-! ### Enough levels -/

section Levels

variable {levels : Nat} (stop : Trial → Nat → Option Nat × Trial)

/-- With as many levels as there are rules, new instances never come to the bound. -/
theorem iterate_setUp (hlevels : g.size ≤ levels) (w : Trial) (rule : RuleId) (parent : Nat) :
    (answer g p)^[levels] stop (w.setUp rule parent) w.tree.size =
      offer g p g.size (w.setUp rule parent) w.tree.size := by
  have henough : ∀ stop : Trial → Nat → Option Nat × Trial,
      (answer g p)^[g.size] stop (w.setUp rule parent) w.tree.size =
        offer g p g.size (w.setUp rule parent) w.tree.size := by
    intro stop
    have hnest : Nests g w.tree [rule] (w.setUp rule parent) := .outermost rule parent rfl
    have hlevels : g.size < [rule].length + g.size := Nat.lt_add_of_pos_left Nat.one_pos
    have h := hnest.iterate (p := p) stop hlevels
    rwa [size_setUp] at h
  obtain ⟨more, rfl⟩ := Nat.exists_eq_add_of_le hlevels
  rw [Function.iterate_add_apply, henough]

/-- **What would be answered at the bound does not matter** where candidates are tried. -/
theorem tryRules_iterate (hlevels : g.size ≤ levels) (parent : Nat) (rules : List RuleId) (w : Trial) :
    tryRules ((answer g p)^[levels] stop) parent rules w = tryRules (offer g p g.size) parent rules w :=
  (tryRules_congr (offer_restores g p g.size) fun rule _ w₁ _ => (iterate_setUp stop hlevels w₁ rule parent).symm).symm

/-- The same where the new instance that is kept is put down below the instance `id`. -/
theorem tryBelow_iterate (hlevels : g.size ≤ levels) (id : Nat) (rules : List RuleId) (put : Nat → Nat → Node → Node)
    (w : Trial) :
    tryBelow ((answer g p)^[levels] stop) id rules put w = tryBelow (offer g p g.size) id rules put w := by
  rw [tryBelow, tryBelow, tryRules_iterate stop hlevels]

/-- **What would be answered at the bound does not matter** where a phrase is offered to an instance, which takes one
more level. -/
theorem answer_iterate (hlevels : g.size ≤ levels) (w : Trial) (id : Nat) :
    (answer g p)^[levels + 1] stop w id = offer g p (g.size + 1) w id := by
  rw [Function.iterate_succ_apply', offer_succ]
  exact (answer_congr (offer_restores g p g.size) fun rule w₁ _ => (iterate_setUp stop hlevels w₁ rule id).symm).symm

end Levels

/-! ### What is kept -/

section Kept

variable {levels : Nat} {ask : Trial → Nat → Option Nat × Trial} {w : Trial} {id i : Nat}

@[simp] theorem size_put (w : Trial) (id : Nat) (f : Node → Node) : (w.put id f).tree.size = w.tree.size :=
  Array.size_modify

/-- Where candidates are tried, at most as many instances are kept as there are rules. -/
theorem size_tryRules_le (levels parent : Nat) (rules : List RuleId) (w : Trial) :
    (tryRules (offer g p levels) parent rules w).2.tree.size ≤ w.tree.size + g.size := by
  rw [tryRules_eq (offer_carries g p levels)]
  cases hfound : (firstOf (instantiate g p levels) rules).found? with
  | none =>
    rw [carry_of_none hfound]
    exact Nat.le_add_right _ _
  | some x =>
    have hdepth := (instantiate_grows (firstOf_spec hfound).2).depth_lt
    have hsize : (hang parent w.tree x).1.size = w.tree.size + (x.2.depth + 1) := by
      simp [hang, Tree.size, Growth.length_nodes]
    rw [carry_of_found hfound, hsize]
    omega

theorem size_tryBelow_le (levels id : Nat) (rules : List RuleId) (put : Nat → Nat → Node → Node) (w : Trial) :
    (tryBelow (offer g p levels) id rules put w).2.tree.size ≤ w.tree.size + g.size := by
  have hle := size_tryRules_le (g := g) (p := p) levels id rules w
  unfold tryBelow
  split
  · next heq =>
    rw [heq] at hle
    rwa [size_put]
  · next heq => rwa [heq] at hle

theorem size_beginPart_le (levels id i : Nat) (w : Trial) (part : Part RuleId) :
    (beginPart (offer g p levels) p id i w part).2.tree.size ≤ w.tree.size + g.size := by
  cases part with
  | simple | alternatives =>
    simp only [beginPart]
    split <;> simp
  | choice c => exact size_tryBelow_le levels id c.candidates _ w

theorem size_beginFrom_le (levels id i : Nat) (parts : List (Part RuleId)) (w : Trial) :
    (beginFrom (offer g p levels) p id i parts w).2.tree.size ≤ w.tree.size + g.size := by
  induction parts generalizing i w with
  | nil => exact Nat.le_add_right _ _
  | cons part rest ih =>
    have hle := size_beginPart_le (g := g) (p := p) levels id i w part
    simp only [beginFrom]
    split
    · next heq => rwa [heq] at hle
    · next w₁ hrefused =>
      have hsame : w₁.tree = w.tree := beginPart_restores (offer_restores g p levels) hrefused
      split
      · rw [← hsame]
        exact ih (i + 1) w₁
      · rw [hsame]
        exact Nat.le_add_right _ _

theorem size_extend_le (levels id : Nat) (w : Trial) (part : Part RuleId) (last : Entry) :
    (extend (offer g p levels) p id w part last).2.tree.size ≤ w.tree.size + g.size := by
  unfold extend
  split
  · split <;> simp
  · split <;> simp
  · next c x =>
    have hle := size_tryBelow_le (g := g) (p := p) levels id c.candidates
      (fun child deepest n => n.push (.child { c.slot x.part with node := child, deepest })) w
    simp only [extendChoice]
    split
    · simp
    · split
      · split
        · next heq => rwa [heq] at hle
        · next heq => rwa [heq] at hle
      · exact Nat.le_add_right _ _
  · exact Nat.le_add_right _ _

/-- **Where a phrase is offered to an instance, at most as many instances are kept as there are rules.** -/
theorem size_offer_le (levels : Nat) (w : Trial) (id : Nat) :
    (offer g p levels w id).2.tree.size ≤ w.tree.size + g.size := by
  cases levels with
  | zero => exact Nat.le_add_right _ _
  | succ levels =>
    rw [offer_succ, answer]
    split
    · exact Nat.le_add_right _ _
    · next n _ =>
      dsimp only
      split
      · exact size_beginFrom_le levels id _ _ w
      · next last _ =>
        split
        · exact size_beginFrom_le levels id _ _ w
        · split
          · exact Nat.le_add_right _ _
          · next part _ =>
            have hle := size_extend_le (g := g) (p := p) levels id w part last
            split
            · next heq => rwa [heq] at hle
            · next heq => rwa [heq] at hle
            · next w₁ hrejected =>
              have hsame : w₁.tree = w.tree := extend_restores (offer_restores g p levels) hrejected (by simp)
              rw [← hsame]
              exact size_beginFrom_le levels id _ _ w₁

end Kept

end Trial

/-! ### What a tree gains -/

theorem Node.Answers.made_le {n : Node} {change : Change} (h : n.Answers g p change) : change.made ≤ g.size := by
  cases change with
  | replace => exact Nat.zero_le _
  | grow growth =>
    obtain ⟨i, hgrows⟩ := h.grows
    exact hgrows.depth_le

/-- **A phrase adds at most as many instances to a tree as there are rules.** -/
theorem Tree.Takes.size_le {t t' : Tree} {active taker : NodeId} (h : t.Takes g active p t' taker) :
    t'.size ≤ t.size + g.size := by
  cases h with
  | own hn h | ancestor _ _ hn h =>
    rw [Tree.size_apply]
    exact Nat.add_le_add_left h.made_le _
  | @global rule growth hown hmem hgrows =>
    rw [Tree.adopt, Tree.size_extend]
    exact Nat.add_le_add_left hgrows.depth_lt _

end PhraseTree
