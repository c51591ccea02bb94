import PhraseTree.Proofs.Grammar.Building

/-!
# Rules declared in another order

A draft whose rules are declared in another order passes the same checks, so it is refused for a fault of the same kind or
built as well.  The grammar that is built is the same but for the numbers of the rules.

* `Grammar.Relabels f g g'` — `g'` is `g` with the rule `id` at place `f id`;
* `Draft.holds_withRules`: the draft passes the same checks with its rules in another order;
* `Draft.rebuild`: what becomes of the two drafts.
-/

namespace PhraseTree

/-! ### Other numbers for the rules -/

/-- The choice with its candidates numbered by `f`. -/
def RuleChoice.relabelled (f : RuleId → RuleId) (c : RuleChoice RuleId) : RuleChoice RuleId :=
  { c with candidates := c.candidates.map f }

/-- The part with its candidates numbered by `f`. -/
def Part.relabelled (f : RuleId → RuleId) : Part RuleId → Part RuleId
  | .simple p => .simple p
  | .choice c => .choice (c.relabelled f)
  | .alternatives a => .alternatives a

/-- **`g'` has the rules of `g` under the numbers that `f` gives them.**  Every choice has its candidates in the same
order. -/
structure Grammar.Relabels (f : RuleId → RuleId) (g g' : Grammar) : Prop where
  size : g'.size = g.size
  topLevel : f topLevel = topLevel
  name : ∀ id, g'.name (f id) = g.name id
  parts : ∀ id, g'.parts (f id) = (g.parts id).map (Part.relabelled f)
  global : g'.global = g.global.relabelled f
  classes : g'.classes = g.classes

namespace Part

variable {f : RuleId → RuleId} {part : Part RuleId}

@[simp] theorem isOptional_relabelled : (part.relabelled f).isOptional = part.isOptional := by cases part <;> rfl

@[simp] theorem key?_relabelled : (part.relabelled f).key? = part.key? := by cases part <;> rfl

theorem restOptional_relabelled (f : RuleId → RuleId) (parts : List (Part RuleId)) (n : Nat) :
    restOptional isOptional (parts.map (relabelled f)) n = restOptional isOptional parts n := by
  have hsame : isOptional ∘ relabelled f = isOptional := funext fun part => isOptional_relabelled
  rw [restOptional, ← List.map_drop, List.all_map, hsame, restOptional]

end Part

/-! ### Resolving the same names by two lists -/

theorem eq_map_of_forall₂ {α β γ : Type} {R : α → β → Prop} {S : α → γ → Prop} {h : β → γ} {l : List α} {a : List β}
    {b : List γ} (hR : List.Forall₂ R l a) (hS : List.Forall₂ S l b) (hRS : ∀ x y z, R x y → S x z → z = h y) :
    b = a.map h := by
  induction hR generalizing b with
  | nil =>
    cases hS
    rfl
  | cons hx _ ih =>
    cases hS with
    | cons hx' hrest => rw [hRS _ _ _ hx hx', ih hrest, List.map_cons]

section Names

variable {names names' : List String} {f : RuleId → RuleId}

theorem RuleChoice.Resolves.relabelled {c : RuleChoice String} {c₁ c₂ : RuleChoice RuleId} (hnodup : names'.Nodup)
    (hf : ∀ id, names'[f id]? = names[id]?) (h₁ : c.Resolves names c₁) (h₂ : c.Resolves names' c₂) :
    c₂ = c₁.relabelled f := by
  obtain ⟨ids, rfl, hids⟩ := h₁
  obtain ⟨ids', rfl, hids'⟩ := h₂
  have hsame : ids' = ids.map f := by
    refine eq_map_of_forall₂ hids hids' fun name id id' hid hid' => ?_
    have hat : names'[f id]? = names'[id']? := by rw [hf id, hid, hid']
    have hlt : id' < names'.length := (List.getElem?_eq_some_iff.mp hid').1
    exact (List.getElem?_inj hlt hnodup).mp hat.symm
  rw [hsame]
  rfl

theorem Part.Resolves.relabelled {part : Part String} {part₁ part₂ : Part RuleId} (hnodup : names'.Nodup)
    (hf : ∀ id, names'[f id]? = names[id]?) (h₁ : part.Resolves names part₁) (h₂ : part.Resolves names' part₂) :
    part₂ = part₁.relabelled f := by
  cases h₁ with
  | simple | alternatives =>
    cases h₂
    rfl
  | choice h₁ =>
    cases h₂ with
    | choice h₂ => rw [h₁.relabelled hnodup hf h₂, Part.relabelled]

theorem exists_relabelling (h : names.Perm names') : ∃ f : RuleId → RuleId, ∀ id, names'[f id]? = names[id]? := by
  refine ⟨fun id => ((names[id]?).map names'.idxOf).getD id, fun id => ?_⟩
  dsimp only
  cases hid : names[id]? with
  | none =>
    rw [List.getElem?_eq_none_iff, h.length_eq, ← List.getElem?_eq_none_iff] at hid
    exact hid
  | some name => exact List.getElem?_idxOf (h.mem_iff.mp (List.mem_of_getElem? hid))

end Names

namespace Draft

variable {d : Draft} {rules : List (Rule String)} {top : List (Part String)} {g g' : Grammar}

/-- The draft with other rules. -/
def withRules (d : Draft) (rules : List (Rule String)) : Draft := { d with rules }

theorem names_perm (h : d.rules.Perm rules) : d.names.Perm (d.withRules rules).names :=
  (h.map Rule.name).cons topLevelName

theorem declared_perm (h : d.rules.Perm rules) (top : List (Part String)) :
    (d.declared top).Perm ((d.withRules rules).declared top) := h.cons _

/-- The rule at a place of the grammar, as it was declared. -/
theorem Declares.rule (h : d.Declares top g) (id : RuleId) :
    Option.Rel (Rule.Resolves d.names) (d.declared top)[id]? g.rules[id]? := rel_getElem? h.rules id

/-- **The same rules in another order make the same grammar under other numbers.** -/
theorem Declares.relabels (h : d.Declares top g) (h' : (d.withRules rules).Declares top g') (hperm : d.rules.Perm rules)
    (hnodup : d.names.Nodup) : ∃ f, g.Relabels f g' := by
  have hnames := names_perm hperm
  have hnodup' := hnames.nodup_iff.mp hnodup
  obtain ⟨f, hf⟩ := exists_relabelling hnames
  -- a rule is found under its new number as the rule that was declared with its name
  have hdeclared : ∀ id, ((d.withRules rules).declared top)[f id]? = (d.declared top)[id]? := by
    intro id
    have hat := hf id
    rw [← map_name_declared d top, ← map_name_declared (d.withRules rules) top, List.getElem?_map,
      List.getElem?_map] at hat
    cases hid : (d.declared top)[id]? with
    | none => rwa [hid, Option.map_none, Option.map_eq_none_iff] at hat
    | some rule =>
      rw [hid, Option.map_some, Option.map_eq_some_iff] at hat
      obtain ⟨rule', hrule', hname⟩ := hat
      have hmem : rule' ∈ d.declared top := (declared_perm hperm top).mem_iff.mpr (List.mem_of_getElem? hrule')
      have hnodup : ((d.declared top).map Rule.name).Nodup := hnodup
      rw [hrule', List.inj_on_of_nodup_map hnodup hmem (List.mem_of_getElem? hid) hname]
  -- both grammars resolve it, each by its own numbers
  have hrule : ∀ id, g'.rules[f id]? = (g.rules[id]?).map fun rule => ⟨rule.name, rule.parts.map (Part.relabelled f)⟩ := by
    intro id
    have h₁ := h.rule id
    have h₂ := h'.rule (f id)
    rw [hdeclared id] at h₂
    generalize (d.declared top)[id]? = rule?, g.rules[id]? = rule₁?, g'.rules[f id]? = rule₂? at h₁ h₂ ⊢
    cases h₁ with
    | none =>
      cases h₂
      rfl
    | @some rule rule₁ h₁ =>
      cases h₂ with
      | @some _ rule₂ h₂ =>
        have hparts : rule₂.parts = rule₁.parts.map (Part.relabelled f) :=
          eq_map_of_forall₂ h₁.parts h₂.parts fun _ _ _ h₁ h₂ => h₁.relabelled hnodup' hf h₂
        rw [Option.map_some, ← hparts, h₁.name, ← h₂.name]
  refine ⟨f, ?_, ?_, ?_, ?_, ?_, ?_⟩
  · rw [Grammar.size, Grammar.size, ← h'.rules.length_eq, ← h.rules.length_eq]
    exact (declared_perm hperm top).length_eq.symm
  · have hat : (d.withRules rules).names[f Grammar.topLevel]? = (d.withRules rules).names[0]? := hf 0
    exact ((List.getElem?_inj (Nat.succ_pos _) hnodup').mp hat.symm).symm
  · intro id
    rw [Grammar.name, Grammar.name, hrule id]
    cases g.rules[id]? <;> rfl
  · intro id
    rw [Grammar.parts, Grammar.parts, hrule id]
    cases g.rules[id]? <;> rfl
  · exact h.global.relabelled hnodup' hf h'.global
  · exact h'.classes.trans h.classes.symm

end Draft

/-! ### The same checks -/

namespace Draft

variable {d d' : Draft} {rules : List (Rule String)} {e e' : GrammarError}

theorem leadsByName_congr {rules rules' : List (Rule String)} (h : ∀ rule, rule ∈ rules ↔ rule ∈ rules') :
    LeadsByName rules = LeadsByName rules' := by
  funext a b
  simp only [LeadsByName, h]

/-- **A draft passes the same checks with its rules in another order.** -/
theorem holds_withRules (h : d.rules.Perm rules) (kind : GrammarError.Kind) : (d.withRules rules).Holds kind ↔ d.Holds kind := by
  have hnames := names_perm h
  cases kind with
  | missingTopLevel | invalidCharRange => exact Iff.rfl
  | duplicateRule => exact hnames.nodup_iff.symm
  | undefinedRule =>
    refine forall₂_congr fun top _ => ?_
    have hreferences : (d.references top).Perm ((d.withRules rules).references top) :=
      ((declared_perm h top).flatMap_right _).append_right _
    simp only [hreferences.mem_iff, hnames.mem_iff]
  | leftRecursion =>
    refine forall₂_congr fun top _ => ?_
    rw [leadsByName_congr fun rule => (declared_perm h top).mem_iff]

/-- Drafts that pass the same checks are refused for faults of the same kind. -/
theorem Refuses.kind_eq (h : d.Refuses e) (h' : d'.Refuses e') (hholds : ∀ kind, d'.Holds kind ↔ d.Holds kind) :
    e'.kind = e.kind := by
  obtain ⟨hnot, hbefore⟩ := h.first
  obtain ⟨hnot', hbefore'⟩ := h'.first
  refine GrammarError.Kind.place_injective (Nat.le_antisymm ?_ ?_)
  · exact Nat.not_lt.mp fun hlt => hnot ((hholds _).mp (hbefore' _ hlt))
  · exact Nat.not_lt.mp fun hlt => hnot' ((hholds _).mpr (hbefore _ hlt))

/-- **What becomes of a draft and of one with its rules in another order.**  Both are refused, for faults of the same
kind, or both are built, to the same grammar but for the numbers of the rules. -/
theorem rebuild (d : Draft) {rules : List (Rule String)} (h : d.rules.Perm rules) :
    (∃ e e', d.build = .error e ∧ (d.withRules rules).build = .error e' ∧ e'.kind = e.kind) ∨
      ∃ g g' f, d.build = .ok g ∧ (d.withRules rules).build = .ok g' ∧ g.Relabels f g' := by
  have hholds := holds_withRules h
  rcases d.check_cases with ⟨e, hcheck, hrefuses⟩ | ⟨top, rs, global, hcheck, hadmissible, hrules, hglobal⟩
  · rcases (d.withRules rules).check_cases with ⟨e', hcheck', hrefuses'⟩ | ⟨top', _, _, _, hadmissible', _, _⟩
    · exact Or.inl ⟨e, e', build_of_error hcheck, build_of_error hcheck', hrefuses.kind_eq hrefuses' hholds⟩
    · exact absurd ((hholds _).mp (hadmissible'.holds _)) hrefuses.first.1
  · rcases (d.withRules rules).check_cases with ⟨e', _, hrefuses'⟩ |
      ⟨top', rs', global', hcheck', hadmissible', hrules', hglobal'⟩
    · exact absurd ((hholds _).mpr (hadmissible.holds _)) hrefuses'.first.1
    · cases hadmissible.topLevel.symm.trans hadmissible'.topLevel
      have hdeclares : d.Declares top ⟨rs, global, d.classes, sound_of_check hcheck⟩ :=
        ⟨hrules, hglobal, rfl, fun _ _ => Grammar.find?_eq_some_iff⟩
      have hdeclares' : (d.withRules rules).Declares top ⟨rs', global', (d.withRules rules).classes, sound_of_check hcheck'⟩ :=
        ⟨hrules', hglobal', rfl, fun _ _ => Grammar.find?_eq_some_iff⟩
      obtain ⟨f, hrelabels⟩ := hdeclares.relabels hdeclares' h hadmissible.names
      exact Or.inr ⟨_, _, f, build_of_ok hcheck, build_of_ok hcheck', hrelabels⟩

end Draft

end PhraseTree
