import PhraseTree.Diagnostic.Message
import PhraseTree.Diagnostic.Record
import Mathlib.Data.List.TakeWhile

/-!
# What messages expect

A message lists the parts behind the one that its place names, up to and including the first required one.  Places may
have been read back from stored diagnostics, so the part may be any word.

* `Grammar.listed g rule place` — the parts that a message lists (`Grammar.expected_eq`);
* `Grammar.upcoming g rule i` — the parts that may come next from the `i`-th on; counted without bound, those from the
  next one on should be listed;
* `Grammar.listed_eq_upcoming_iff`: they are, behind every part but that of the largest word, where the word of the next
  part is zero;
* `Grammar.expected_upcoming` says all of it.
-/

namespace PhraseTree

/-! ### Parts up to the first required one -/

section UptoRequired

variable {α β : Type} {isOptional : α → Bool} {l : List α}

theorem uptoRequired_map {isOptional : β → Bool} (f : α → β) (l : List α) :
    (uptoRequired (fun a => isOptional (f a)) l).map f = uptoRequired isOptional (l.map f) := by
  induction l with
  | nil => rfl
  | cons a l ih =>
    rw [uptoRequired, List.map_cons, uptoRequired]
    split
    · rw [List.map_cons, ih]
    · rfl

theorem head?_uptoRequired (l : List α) : (uptoRequired isOptional l).head? = l.head? := by
  cases l with
  | nil => rfl
  | cons a l =>
    rw [uptoRequired]
    split <;> rfl

theorem uptoRequired_eq_nil : uptoRequired isOptional l = [] ↔ l = [] := by
  rw [← List.head?_eq_none_iff, head?_uptoRequired, List.head?_eq_none_iff]

/-- They are the optional parts that come first, and the required one behind them, if there is one. -/
theorem uptoRequired_eq (isOptional : α → Bool) (l : List α) :
    uptoRequired isOptional l = l.takeWhile isOptional ++ (l.dropWhile isOptional).take 1 := by
  induction l with
  | nil => rfl
  | cons a l ih =>
    rw [uptoRequired]
    split
    · next ho => rw [ih, List.takeWhile_cons_of_pos ho, List.dropWhile_cons_of_pos ho, List.cons_append]
    · next ho =>
      rw [List.takeWhile_cons_of_neg ho, List.dropWhile_cons_of_neg ho]
      rfl

end UptoRequired

/-! ### Parts that are listed -/

theorem Place.toNat_next (place : Place) :
    (place.part + 1).toNat = if place.part.toNat + 1 < UInt64.size then place.part.toNat + 1 else 0 := by
  have hlt := place.part.toNat_lt_size
  rw [UInt64.toNat_add, UInt64.toNat_one]
  unfold UInt64.size at hlt ⊢
  split <;> omega

namespace Grammar

variable {g : Grammar} {place : Place} {rule : RuleId}

/-- **The parts that a message lists** for an instance of `rule` that stands at `place`, each with its place. -/
def listed (g : Grammar) (rule : RuleId) (place : Place) : List (Part RuleId × Nat) :=
  uptoRequired (·.1.isOptional) (((g.parts rule).drop (place.part + 1).toNat).zipIdx (place.part + 1).toNat)

/-- **The parts that may come next from the `i`-th on**: the optional ones that come first, and the required one behind
them, each with its place. -/
def upcoming (g : Grammar) (rule : RuleId) (i : Nat) : List (Part RuleId × Nat) :=
  let rest := ((g.parts rule).drop i).zipIdx i
  rest.takeWhile (·.1.isOptional) ++ (rest.dropWhile (·.1.isOptional)).take 1

theorem expected_eq (h : g.find? place.rule = some rule) :
    g.expected place =
      match g.listed rule place with
      | [] => "nothing (rule should be complete)"
      | parts => ", then ".intercalate (parts.map fun x => g.describe x.1) := by
  have hparts : uptoRequired Part.isOptional ((g.parts rule).drop (place.part + 1).toNat) =
      (g.listed rule place).map Prod.fst := by
    rw [listed, uptoRequired_map Prod.fst, List.zipIdx_map_fst]
  unfold expected
  rw [h]
  dsimp only
  rw [hparts]
  cases g.listed rule place with
  | nil => rfl
  | cons x rest => simp [List.map_map, Function.comp_def]

theorem upcoming_eq_nil {i : Nat} : g.upcoming rule i = [] ↔ (g.parts rule).length ≤ i := by
  rw [upcoming, ← uptoRequired_eq, uptoRequired_eq_nil, List.zipIdx_eq_nil_iff, List.drop_eq_nil_iff]

theorem head?_upcoming (g : Grammar) (rule : RuleId) (i : Nat) :
    (g.upcoming rule i).head? = (g.parts rule)[i]?.map (·, i) := by
  rw [upcoming, ← uptoRequired_eq, head?_uptoRequired, List.head?_zipIdx, List.head?_drop]

/-- The parts are listed from the next one on, or from the first one on behind the part of the largest word. -/
theorem listed_eq (g : Grammar) (rule : RuleId) (place : Place) :
    g.listed rule place =
      g.upcoming rule (if place.part.toNat + 1 < UInt64.size then place.part.toNat + 1 else 0) := by
  rw [listed, upcoming, ← uptoRequired_eq, place.toNat_next]

/-- **Which places get the right parts**: all but that of the largest word, unless the rule has no parts at all. -/
theorem listed_eq_upcoming_iff :
    g.listed rule place = g.upcoming rule (place.part.toNat + 1) ↔
      place.part.toNat + 1 < UInt64.size ∨ g.parts rule = [] := by
  rw [listed_eq]
  split
  · next h => exact iff_of_true rfl (Or.inl h)
  · next h =>
    rw [or_iff_right h]
    constructor
    · intro heq
      -- the first part would be listed with two places
      have hhead := congrArg List.head? heq
      rw [head?_upcoming, head?_upcoming] at hhead
      cases hparts : g.parts rule with
      | nil => rfl
      | cons first rest =>
        rw [hparts, List.getElem?_cons_zero, List.getElem?_cons_succ, Option.map_some] at hhead
        obtain ⟨_, _, hplace⟩ := Option.map_eq_some_iff.mp hhead.symm
        cases congrArg Prod.snd hplace
    · intro hparts
      rw [upcoming_eq_nil.mpr (by simp [hparts]), upcoming_eq_nil.mpr (by simp [hparts])]

/-- **What messages expect.**  A message lists the parts behind the one that its place names, up to and including the first
required one, and says that the rule should be complete where nothing is left.  That holds for every place whose part is
not the largest word, and for every place in a rule without parts.  Behind the part of the largest word nothing is left,
but the parts are listed from the first one on. -/
theorem expected_upcoming (g : Grammar) (place : Place) (rule : RuleId) (hfind : g.find? place.rule = some rule) :
    (g.expected place =
        match g.listed rule place with
        | [] => "nothing (rule should be complete)"
        | parts => ", then ".intercalate (parts.map fun x => g.describe x.1)) ∧
      (g.listed rule place = g.upcoming rule (place.part.toNat + 1) ↔
        place.part.toNat + 1 < UInt64.size ∨ g.parts rule = []) ∧
      (g.upcoming rule (place.part.toNat + 1) = [] ↔ (g.parts rule).length ≤ place.part.toNat + 1) ∧
      ((g.parts rule).length ≤ place.part.toNat + 1 → place.part.toNat + 1 < UInt64.size ∨ g.parts rule = [] →
        g.expected place = "nothing (rule should be complete)") ∧
      (place.part.toNat + 1 = UInt64.size → g.listed rule place = g.upcoming rule 0) ∧
      ∀ d : Diagnostic, d.reason.place? = some place →
        ∃ opening ∈ ["Unfinished rule", "Unexpected phrase encountered for rule"],
          d.message g = opening ++ " \"" ++ place.rule ++ "\". Expected: " ++ g.expected place ++ ", received: \"" ++
            d.content ++ "\"" := by
  have hexpected := expected_eq hfind
  refine ⟨hexpected, listed_eq_upcoming_iff, upcoming_eq_nil, fun hlen hright => ?_, fun hlargest => ?_,
    fun d hplace => ?_⟩
  · rw [hexpected, listed_eq_upcoming_iff.mpr hright, upcoming_eq_nil.mpr hlen]
  · rw [listed_eq, if_neg (by omega)]
  · cases hreason : d.reason with
    | unknownCharacter =>
      rw [hreason] at hplace
      cases hplace
    | unfinishedRule p =>
      rw [hreason] at hplace
      cases hplace
      exact ⟨_, List.mem_cons_self, by simp [Diagnostic.message, hreason]⟩
    | unexpectedPhrase p =>
      rw [hreason] at hplace
      cases hplace
      exact ⟨_, List.mem_cons_of_mem _ List.mem_cons_self, by simp [Diagnostic.message, hreason]⟩

end Grammar

namespace Importing

/-- An import: what kind it is may be left out, and so may what follows it. -/
def rules : List (Rule RuleId) :=
  [⟨topLevelName, [.simple (.keyword "import"), .simple (.modifiers { phrases := ["type"], optional := true }),
    .simple (.keyword "from")]⟩]

theorem sound_rules : Sound rules { key := "global", candidates := [], optional := true } {} := by
  constructor <;> decide +kernel

def grammar : Grammar := ⟨rules, _, _, sound_rules⟩

/-- What follows the keyword, and nothing behind the last part. -/
theorem expected_import :
    grammar.expected ⟨topLevelName, 0⟩ = "one of [\"type\"], then \"from\"" ∧
      grammar.expected ⟨topLevelName, 2⟩ = "nothing (rule should be complete)" := by
  have hfind : grammar.find? topLevelName = some Grammar.topLevel := by decide +kernel
  have hfirst := grammar.expected_upcoming ⟨topLevelName, 0⟩ Grammar.topLevel hfind
  have hlast := grammar.expected_upcoming ⟨topLevelName, 2⟩ Grammar.topLevel hfind
  constructor
  · rw [hfirst.1, hfirst.2.1.mpr (Or.inl (by decide))]
    decide +kernel
  · exact hlast.2.2.2.1 (by decide) (Or.inl (by decide))

/-- **The part of the largest word.**  Such a place can be read from a stored diagnostic.  Nothing is behind it, but the
message starts again at the first part. -/
theorem starts_again :
    let stored := Datum.record [("rule", .text topLevelName), ("part", .whole 18446744073709551615)]
    Place.ofDatum? stored = some ⟨topLevelName, 18446744073709551615⟩ ∧
      grammar.find? topLevelName = some Grammar.topLevel ∧
      grammar.upcoming Grammar.topLevel 18446744073709551616 = [] ∧
      grammar.expected ⟨topLevelName, 18446744073709551615⟩ = "\"import\"" ∧
      (Diagnostic.mk ⟨.start, .start⟩ "b" (.unfinishedRule ⟨topLevelName, 18446744073709551615⟩) []).message grammar =
        "Unfinished rule \"TopLevel\". Expected: \"import\", received: \"b\"" := by
  exact ⟨by decide +kernel, by decide +kernel, Grammar.upcoming_eq_nil.mpr (by decide +kernel), by decide +kernel,
    by decide +kernel⟩

end Importing

end PhraseTree
