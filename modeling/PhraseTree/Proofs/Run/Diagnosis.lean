import PhraseTree.Proofs.Run.Configuration
import PhraseTree.Proofs.Tree.Acceptance

/-!
# Which reports a phrase gives rise to

A phrase that is placed is taken by the active instance, by a global rule on its behalf, by an instance around it, or not
at all.  Only the last two are ever reported, and what is reported depends on nothing but who refused the phrase and who
took it.

* `Tree.Disposes g p t active who left t' taker` — who takes the phrase, and which instances it leaves; there is one
  answer only (`Tree.Disposes.unique`);
* `Run.Diagnoses g s p must r who left t' new` — the reports `new` that are made thereupon;
* `Run.Resolves.diagnoses`: placing a phrase makes just these; `Run.diagnostics_exact`: so does every turn of a run, and
  apart from the turns only unknown characters and the end of the text are reported.
-/

namespace PhraseTree

/-- Who takes a phrase. -/
inductive Absorber where
  | active
  | global (rule : RuleId)
  | around (id : NodeId)
deriving DecidableEq

namespace Absorber

/-- The instance around the active one, if that takes the phrase. -/
def around? : Absorber → Option NodeId
  | .around id => some id
  | .active | .global _ => none

end Absorber

variable {g : Grammar} {s : Settings} {text rest : List Char} {p : Phrase} {must taken : Bool} {r r' : Run}

/-! ### Who takes a phrase -/

namespace Tree

variable {t t' t₁ t₂ : Tree} {active taker taker₁ taker₂ : NodeId} {who who₁ who₂ : Option Absorber}
  {left left₁ left₂ : List NodeId}

/-- **What becomes of `p`.**  The active instance takes it if it does not refuse; else the first global rule that accepts
it; else the nearest instance around the active one that does not refuse; else nobody.  The instances in `left` are those
that the phrase leaves or would have had to leave: from the active one up to the one that takes it, that one excluded. -/
inductive Disposes (g : Grammar) (p : Phrase) (t : Tree) (active : NodeId) :
    Option Absorber → List NodeId → Tree → NodeId → Prop
  | active {change : Change} (hown : (t.offer g p active).found? = some change) :
      Disposes g p t active (some .active) [] (t.apply active change).1 (t.apply active change).2
  | global {rule : RuleId} {growth : Growth} (hown : (t.offer g p active).found? = none)
      (hfirst : IsFirst (g.Accepts p) g.global.candidates rule) (hgrowth : (g.sprout p rule).found? = some growth) :
      Disposes g p t active (some (.global rule)) [] (t.adopt g active rule growth).1 (t.adopt g active rule growth).2
  | around {id : NodeId} {change : Change} {passed rest : List NodeId} (hown : (t.offer g p active).found? = none)
      (hglobal : ∀ rule ∈ g.global.candidates, ¬ g.Accepts p rule) (haround : t.ancestors active = passed ++ id :: rest)
      (hpassed : ∀ j ∈ passed, (t.offer g p j).found? = none) (htaken : (t.offer g p id).found? = some change) :
      Disposes g p t active (some (.around id)) (active :: passed) (t.apply id change).1 (t.apply id change).2
  | nobody (hown : (t.offer g p active).found? = none) (hglobal : ∀ rule ∈ g.global.candidates, ¬ g.Accepts p rule)
      (haround : ∀ j ∈ t.ancestors active, (t.offer g p j).found? = none) :
      Disposes g p t active none (t.chain active) t active

theorem first_split_unique {α : Type} {P : α → Prop} {before before' after after' : List α} {x y : α}
    (h : before ++ x :: after = before' ++ y :: after') (hx : P x) (hy : P y) (hbefore : ∀ z ∈ before, ¬ P z)
    (hbefore' : ∀ z ∈ before', ¬ P z) : before = before' ∧ x = y := by
  rcases List.append_eq_append_iff.mp h with ⟨between, rfl, htail⟩ | ⟨between, rfl, htail⟩
  · cases between with
    | nil => exact ⟨by simp, (List.cons.inj htail).1⟩
    | cons z between =>
      obtain ⟨rfl, -⟩ := List.cons.inj htail
      exact absurd hx (hbefore' x (by simp))
  · cases between with
    | nil => exact ⟨by simp, (List.cons.inj htail).1.symm⟩
    | cons z between =>
      obtain ⟨rfl, -⟩ := List.cons.inj htail
      exact absurd hy (hbefore y (by simp))

/-- **There is one answer only** to who takes a phrase, and which instances it leaves. -/
theorem Disposes.unique (h₁ : t.Disposes g p active who₁ left₁ t₁ taker₁)
    (h₂ : t.Disposes g p active who₂ left₂ t₂ taker₂) : who₁ = who₂ ∧ left₁ = left₂ := by
  have haccepts : ∀ {rule}, IsFirst (g.Accepts p) g.global.candidates rule →
      ¬ ∀ rule ∈ g.global.candidates, ¬ g.Accepts p rule := by
    rintro rule ⟨before, after, hsplit, haccepts, -⟩ hnone
    exact hnone rule (by rw [hsplit]; exact List.mem_append_right _ List.mem_cons_self) haccepts
  cases h₁ with
  | active hown =>
    cases h₂ with
    | active => exact ⟨rfl, rfl⟩
    | global hown₂ | around hown₂ | nobody hown₂ => cases hown.symm.trans hown₂
  | global hown hfirst =>
    cases h₂ with
    | active hown₂ => cases hown.symm.trans hown₂
    | global hown₂ hfirst₂ =>
      obtain ⟨before, after, hsplit, hrule, hbefore⟩ := hfirst
      obtain ⟨before₂, after₂, hsplit₂, hrule₂, hbefore₂⟩ := hfirst₂
      obtain ⟨-, rfl⟩ := first_split_unique (hsplit.symm.trans hsplit₂) hrule hrule₂ hbefore hbefore₂
      exact ⟨rfl, rfl⟩
    | around _ hglobal₂ | nobody _ hglobal₂ => exact absurd hglobal₂ (haccepts hfirst)
  | around hown hglobal haround hpassed htaken =>
    cases h₂ with
    | active hown₂ => cases hown.symm.trans hown₂
    | global _ hfirst₂ => exact absurd hglobal (haccepts hfirst₂)
    | around _ _ haround₂ hpassed₂ htaken₂ =>
      obtain ⟨rfl, rfl⟩ := first_split_unique (P := fun j => (t.offer g p j).found? ≠ none)
        (haround.symm.trans haround₂) (by simp [htaken]) (by simp [htaken₂]) (by simpa using hpassed)
        (by simpa using hpassed₂)
      exact ⟨rfl, rfl⟩
    | nobody _ _ hnobody =>
      have hnone := hnobody _ (by rw [haround]; exact List.mem_append_right _ List.mem_cons_self)
      cases htaken.symm.trans hnone
  | nobody hown hglobal hnobody =>
    cases h₂ with
    | active hown₂ => cases hown.symm.trans hown₂
    | global _ hfirst₂ => exact absurd hglobal (haccepts hfirst₂)
    | around _ _ haround₂ _ htaken₂ =>
      have hnone := hnobody _ (by rw [haround₂]; exact List.mem_append_right _ List.mem_cons_self)
      cases htaken₂.symm.trans hnone
    | nobody => exact ⟨rfl, rfl⟩

theorem offerGlobal_eq_none : (offerGlobal g p).found? = none ↔ ∀ rule ∈ g.global.candidates, ¬ g.Accepts p rule := by
  rw [← Option.not_isSome_iff_eq_none, offerGlobal, firstOf_isSome]
  simp only [Grammar.sprout_isSome, not_exists, not_and]

theorem Disposes.left_alone (h : t.Disposes g p active who left t' taker) (ho : t.Ordered) (hlt : active < t.size) :
    ∀ j ∈ left, t'.node? j = t.node? j := by
  cases h with
  | active | global => simp
  | nobody => exact fun _ _ => rfl
  | @around id change passed rest hown _ haround hpassed htaken =>
    obtain ⟨n, hn, hanswers⟩ := offer_answers htaken
    intro j hj
    -- whoever refuses the phrase is not the one that takes it
    have hne : j ≠ id := by
      rintro rfl
      rcases List.mem_cons.mp hj with rfl | hj
      · cases hown.symm.trans htaken
      · cases (hpassed j hj).symm.trans htaken
    have hmem : j ∈ t.chain active := by
      rcases List.mem_cons.mp hj with rfl | hj
      · exact t.mem_chain_self j
      · exact List.mem_cons_of_mem _ (by rw [haround]; exact List.mem_append_left _ hj)
    exact (graft_apply hn hanswers).others j (Nat.lt_of_le_of_lt (ho.le_of_mem_chain hmem) hlt) hne

end Tree

/-! ### What is reported -/

namespace Run

/-- **Why something is reported** where `who` takes a phrase and it leaves the instances `left`, in the order of the
reports.  The phrase is unexpected if it had to be placed and nobody takes it.  An instance is unfinished if the phrase
leaves it for one around it, or would have had to leave it, and it is the innermost of those that still needs
something. -/
def reasons (g : Grammar) (must : Bool) (r : Run) (who : Option Absorber) (left : List NodeId) : List Reason :=
  (if must = true ∧ who = none then [.unexpectedPhrase (r.tree.place g r.active)] else []) ++
    if (who.bind Absorber.around?).isSome = true ∨ must = true ∧ who = none then
      ((left.find? (r.tree.needsMore g)).map fun id => .unfinishedRule (r.tree.place g id)).toList
    else []

/-- **The reports that `p` gives rise to**, in order.  All of them name those that were asked, the innermost first, as
they are in the tree `t'` afterwards. -/
def diagnoses (g : Grammar) (s : Settings) (p : Phrase) (must : Bool) (r : Run) (who : Option Absorber)
    (left : List NodeId) (t' : Tree) : List Diagnostic :=
  (r.reasons g must who left).map fun reason =>
    ⟨p.span, p.text, reason, trail g s t' (left ++ (who.bind Absorber.around?).toList)⟩

theorem reportLeaving_spec (g : Grammar) (s : Settings) (r : Run) (p : Phrase) (must taken : Bool) (l : Leaving) :
    (reportLeaving g s r p must taken l).tree = r.tree ∧ (reportLeaving g s r p must taken l).active = r.active ∧
      (reportLeaving g s r p must taken l).reports =
        (((if (must && !taken) = true then [Reason.unexpectedPhrase l.origin] else []) ++
          (if (must || taken) = true then (l.unfinished?.map Reason.unfinishedRule).toList else [])).map fun reason =>
            Diagnostic.mk p.span p.text reason (trail g s r.tree l.asked)).reverse ++ r.reports := by
  unfold reportLeaving
  cases l.unfinished? <;> cases must <;> cases taken <;> exact ⟨rfl, rfl, rfl⟩

theorem Resolves.diagnoses (h : Resolves g s p must r r' taken) :
    ∃ who left, r.tree.Disposes g p r.active who left r'.tree r'.active ∧ taken = who.isSome ∧
      r'.reports = (r.diagnoses g s p must who left r'.tree).reverse ++ r.reports := by
  cases h with
  | own hown => exact ⟨_, _, .active hown, rfl, by simp [Run.diagnoses, reasons, Absorber.around?]⟩
  | global hown hglobal =>
    obtain ⟨hfirst, hgrowth⟩ := firstOf_sprout hglobal
    exact ⟨_, _, .global hown hfirst hgrowth, rfl, by simp [Run.diagnoses, reasons, Absorber.around?]⟩
  | @ancestor id change counters hown hglobal htaken =>
    obtain ⟨htree, hactive, hreports⟩ := reportLeaving_spec g s
      { r with tree := (r.tree.apply id change).1, active := (r.tree.apply id change).2, counters } p must true
      (r.tree.leaving g r.active (r.tree.climb g p r.active))
    rw [htree, hactive, hreports]
    rw [Tree.climb_eq] at htaken
    obtain ⟨-, hfound⟩ := Tree.offerInOrder_spec htaken
    obtain ⟨further, haround, hpassed⟩ := Tree.offerInOrder_refused htaken
    refine ⟨_, _, .around hown (Tree.offerGlobal_eq_none.mp hglobal) haround hpassed hfound, rfl, ?_⟩
    simp [Run.diagnoses, reasons, Absorber.around?, Tree.leaving, Tree.climb_eq, htaken, Function.comp_def]
  | @refused counters hown hglobal htaken =>
    obtain ⟨htree, hactive, hreports⟩ := reportLeaving_spec g s { r with counters } p must false
      (r.tree.leaving g r.active (r.tree.climb g p r.active))
    rw [htree, hactive, hreports]
    rw [Tree.climb_eq] at htaken
    obtain ⟨hrefused, hall⟩ := Tree.offerInOrder_none htaken
    refine ⟨_, _, .nobody hown (Tree.offerGlobal_eq_none.mp hglobal) hall, rfl, ?_⟩
    simp [Run.diagnoses, reasons, Tree.leaving, Tree.climb_eq, htaken, hrefused, Tree.chain, Function.comp_def]

theorem Turn.reports_eq (h : Turn g s text r p must r' rest) : r'.reports = (r.resolve g s p must).1.reports := by
  cases h with
  | flush _ _ hbuffer => rw [flush_of_some hbuffer]
  | push =>
    rw [push_chars]
    split <;> rfl
  | @text r taken ch rest _ _ =>
    rw [readText, ← takeChar, giveBack]
    split <;> rfl

/-- **A turn reports what its phrase gives rise to**, and leaves those alone that it names as left. -/
theorem Turn.diagnoses (h : Turn g s text r p must r' rest) :
    ∃ who left t', r.tree.Disposes g p r.active who left t' r'.active ∧
      (∀ id ∈ left, t'.node? id = r.tree.node? id) ∧
      (r'.tree = t' ∨ (t'.toReread? r'.active).isSome = true ∧ r'.tree = t'.settle r'.active) ∧
      r'.reports = (r.diagnoses g s p must who left t').reverse ++ r.reports := by
  have harranged := h.tree_arranged
  obtain ⟨who, left, hdisposes, -, hreports⟩ := (resolve_resolves g s r p must).diagnoses
  obtain ⟨hactive, htree⟩ := h.goes_on
  rw [← hactive] at hdisposes htree
  exact ⟨who, left, _, hdisposes, hdisposes.left_alone harranged.ordered harranged.active_lt, htree,
    h.reports_eq.trans hreports⟩

end Run

/-- **Exactly what the placing of a phrase calls for is reported.**  For each phrase that is placed in a run there is one
answer to who takes it, and one list of instances that it leaves; these stay as they are, and the reports are those that
the answer gives rise to.  Reading a character otherwise reports no more than that it is unknown; and to the end of the
text, at most one instance is reported, if the settings ask for it. -/
theorem Grammar.diagnostics_exact (g : Grammar) (s : Settings) (text : List Char) :
    (∀ {r p must r' rest}, Run.Turn g s text r p must r' rest →
      ∃ who left t', r.tree.Disposes g p r.active who left t' r'.active ∧
        (∀ {who₁ left₁ t₁ taker₁}, r.tree.Disposes g p r.active who₁ left₁ t₁ taker₁ → who₁ = who ∧ left₁ = left) ∧
        (∀ id ∈ left, t'.node? id = r.tree.node? id) ∧
        (r'.tree = t' ∨ (t'.toReread? r'.active).isSome = true ∧ r'.tree = t'.settle r'.active) ∧
        r'.reports = (r.diagnoses g s p must who left t').reverse ++ r.reports) ∧
      (∀ {r taken ch rest r' taken' again}, Run.Reached g s text r taken (ch :: rest) →
        Run.Reads g s r taken ch r' taken' again →
        (∃ r₀ p must, Run.Turn g s text r₀ p must r' (again ++ rest) ∧ r₀.tree = r.tree ∧ r₀.active = r.active ∧
          r₀.reports = r.reports) ∨
        r'.tree = r.tree ∧ r'.active = r.active ∧
          (r'.reports = r.reports ∨ g.classes.startingKind ch = none ∧ Text.isBlank ch = false ∧
            r'.reports = ⟨⟨r.cursor, r.cursor.advance ch⟩, String.singleton ch, .unknownCharacter, []⟩ :: r.reports)) ∧
      ∀ {r}, g.read? s text = some r → ∃ r₀ taken, Run.Ends g s text r₀ taken ∧ r.tree = r₀.tree ∧
        r.reports = (r₀.closing g s).map (·.cut s) ++ r₀.reports := by
  refine ⟨fun h => ?_, fun h hread => h.turn_of_read hread, fun {r} hread => ?_⟩
  · obtain ⟨who, left, t', hdisposes, hleft, htree, hreports⟩ := h.diagnoses
    exact ⟨who, left, t', hdisposes, fun h₁ => h₁.unique hdisposes, hleft, htree, hreports⟩
  · obtain ⟨r₀, taken, hends, rfl⟩ := read?_reached hread
    refine ⟨r₀, taken, hends, ?_⟩
    unfold Run.closing
    split
    · rw [Run.reportEnd_eq]
      cases r₀.ending? g with
      | none => exact ⟨rfl, rfl⟩
      | some d => exact ⟨rfl, rfl⟩
    · exact ⟨rfl, rfl⟩

namespace Listing

/-- The run over an item without a value and a bracket, which nothing takes. -/
def bracketed : Run := (Run.readAll (grammar true) {} 2 {} ['a', ')']).get (by decide +kernel)

/-- The bracket is read on until the text ends. -/
def bracket : Phrase := .single .chars (Cursor.start.advance 'a') ')'

/-- The bracket is unexpected, and the item that it would have had to leave is unfinished. -/
theorem diagnosed_listing :
    Run.Turn (grammar true) {} ['a', ')'] bracketed bracket true (bracketed.flush (grammar true) {}) [] ∧
      (bracketed.flush (grammar true) {}).reports.reverse = bracketed.reports.reverse ++
        [⟨bracket.span, ")", .unexpectedPhrase ⟨"Item", 0⟩, [⟨"Item", 0⟩, ⟨topLevelName, 0⟩]⟩,
          ⟨bracket.span, ")", .unfinishedRule ⟨"Item", 0⟩, [⟨"Item", 0⟩, ⟨topLevelName, 0⟩]⟩] ∧
      ∃ who left t',
        bracketed.tree.Disposes (grammar true) bracket bracketed.active who left t' bracketed.active ∧
          (bracketed.flush (grammar true) {}).reports =
            (bracketed.diagnoses (grammar true) {} bracket true who left t').reverse ++ bracketed.reports := by
  have hread : Run.readAll (grammar true) {} 2 {} ['a', ')'] = some bracketed := (Option.some_get _).symm
  have hstart : Run.Reached (grammar true) {} ['a', ')'] {} [] (['a', ')'] ++ []) := .start
  obtain ⟨taken, hreached⟩ := hstart.readAll hread
  have hturn : Run.Turn (grammar true) {} ['a', ')'] bracketed bracket true (bracketed.flush (grammar true) {}) [] :=
    .flush hreached (by decide +kernel) (by decide +kernel) (by simp)
  have hactive : (bracketed.flush (grammar true) {}).active = bracketed.active := by decide +kernel
  obtain ⟨who, left, t', hdisposes, -, -, -, hreports⟩ := (Grammar.diagnostics_exact (grammar true) {} _).1 hturn
  rw [hactive] at hdisposes
  exact ⟨hturn, by decide +kernel, who, left, t', hdisposes, hreports⟩

end Listing

end PhraseTree
