import PhraseTree.Proofs.Tree.Answer

/-!
# What placing a phrase does

* `Run.Resolves g s p must r r' taken` — the ways in which the phrase `p` is placed in the run `r`, one constructor for
  each: by the active instance, by a global rule, by an instance around the active one, or not at all;
* `Run.Places g p must r r' taken` — what all of them have in common: what becomes of the tree, and what is reported.

`Run.resolve_resolves`, `Run.resolve_places`: placing does just that.  `Run.resolve_tree`: what is kept where a phrase
is taken is kept where one is placed.  `Run.offered_resolve`: it is counted once.
-/

namespace PhraseTree

/-- Whether the report is about input that no instance holds: an unknown character or an unexpected phrase. -/
def Diagnostic.isResidue (d : Diagnostic) : Bool :=
  match d.reason with
  | .unknownCharacter | .unexpectedPhrase _ => true
  | .unfinishedRule _ => false

/-- Whether the report is about a phrase that nothing takes. -/
def Diagnostic.isUnexpected (d : Diagnostic) : Bool :=
  match d.reason with
  | .unexpectedPhrase _ => true
  | .unknownCharacter | .unfinishedRule _ => false

namespace Run

variable {g : Grammar} {s : Settings} {r r' : Run} {p : Phrase} {must taken : Bool}

/-- **How `p` is placed in `r`.**  Counters apart, this is all that becomes of the run. -/
inductive Resolves (g : Grammar) (s : Settings) (p : Phrase) (must : Bool) (r : Run) : Run → Bool → Prop
  | own {change : Change} {counters : Counters} (hown : (r.tree.offer g p r.active).found? = some change) :
      Resolves g s p must r
        { r with tree := (r.tree.apply r.active change).1, active := (r.tree.apply r.active change).2, counters } true
  | global {rule : RuleId} {growth : Growth} {counters : Counters} (hown : (r.tree.offer g p r.active).found? = none)
      (hglobal : (Tree.offerGlobal g p).found? = some (rule, growth)) :
      Resolves g s p must r
        { r with
          tree := (r.tree.adopt g r.active rule growth).1
          active := (r.tree.adopt g r.active rule growth).2
          counters } true
  | ancestor {id : NodeId} {change : Change} {counters : Counters}
      (hown : (r.tree.offer g p r.active).found? = none) (hglobal : (Tree.offerGlobal g p).found? = none)
      (htaken : (r.tree.climb g p r.active).taken? = some (id, change)) :
      Resolves g s p must r
        (reportLeaving g s
          { r with tree := (r.tree.apply id change).1, active := (r.tree.apply id change).2, counters }
          p must true (r.tree.leaving g r.active (r.tree.climb g p r.active))) true
  | refused {counters : Counters} (hown : (r.tree.offer g p r.active).found? = none)
      (hglobal : (Tree.offerGlobal g p).found? = none) (htaken : (r.tree.climb g p r.active).taken? = none) :
      Resolves g s p must r
        (reportLeaving g s { r with counters } p must false
          (r.tree.leaving g r.active (r.tree.climb g p r.active))) false

/-- **What placing `p` in `r` does.** -/
structure Places (g : Grammar) (p : Phrase) (must : Bool) (r r' : Run) (taken : Bool) : Prop where
  cursor : r'.cursor = r.cursor
  buffer : r'.buffer? = r.buffer?
  takes : taken = true → r.tree.Takes g r.active p r'.tree r'.active
  refuses : taken = false → r'.tree = r.tree ∧ r'.active = r.active ∧ (r.tree.offer g p r.active).found? = none
  reports : ∃ new, r'.reports = new ++ r.reports ∧ (∀ d ∈ new, d.span = p.span ∧ d.content = p.text) ∧
    new.countP Diagnostic.isResidue = if must && !taken then 1 else 0

/-- What is reported where a phrase leaves instances behind: an unexpected phrase if nothing took it, and at most one
unfinished rule. -/
theorem reportLeaving_eq (l : Leaving) : ∃ new reported,
    reportLeaving g s r p must taken l =
        { r with reports := new ++ r.reports, counters := { r.counters with reported := reported } } ∧
      (∀ d ∈ new, d.span = p.span ∧ d.content = p.text) ∧
      new.countP Diagnostic.isResidue = if must && !taken then 1 else 0 := by
  unfold reportLeaving
  have hunfinished : ∀ {place trail}, (Diagnostic.mk p.span p.text (.unfinishedRule place) trail).isResidue = false :=
    rfl
  have hunexpected : ∀ {place trail}, (Diagnostic.mk p.span p.text (.unexpectedPhrase place) trail).isResidue = true :=
    rfl
  cases l.unfinished? with
  | none =>
    by_cases hm : (must && !taken) = true
    · exact ⟨[_], _, by simp only [hm, if_true, report]; rfl, by simp, by simp [hm, hunexpected]⟩
    · exact ⟨[], _, by simp only [hm]; rfl, by simp, by simp [hm]⟩
  | some place =>
    by_cases hm : (must && !taken) = true
    · have ho : (must || taken) = true := by simp_all
      exact ⟨[_, _], _, by simp only [hm, ho, if_true, report]; rfl, by simp, by simp [hm, hunexpected, hunfinished]⟩
    · by_cases ho : (must || taken) = true
      · exact ⟨[_], _, by simp only [hm, ho, if_true, report]; rfl, by simp, by simp [hm, hunfinished]⟩
      · exact ⟨[], _, by simp only [hm, ho]; rfl, by simp, by simp [hm]⟩

theorem resolve_resolves (g : Grammar) (s : Settings) (r : Run) (p : Phrase) (must : Bool) :
    Resolves g s p must r (r.resolve g s p must).1 (r.resolve g s p must).2 := by
  unfold resolve
  dsimp only
  split
  · next change hown => exact .own hown
  · next hown =>
    split
    · next rule growth hglobal => exact .global hown hglobal
    · next hglobal =>
      split
      · next id change htaken => exact .ancestor hown hglobal htaken
      · next htaken => exact .refused hown hglobal htaken

theorem Resolves.places (h : Resolves g s p must r r' taken) : Places g p must r r' taken := by
  cases h with
  | own hown =>
    obtain ⟨n, hn, ha⟩ := Tree.offer_answers hown
    exact ⟨rfl, rfl, fun _ => .own hn ha, by simp, [], rfl, by simp, by simp⟩
  | global hown hglobal =>
    obtain ⟨hmem, hgrows⟩ := offerGlobal_spec hglobal
    exact ⟨rfl, rfl, fun _ => .global hown hmem hgrows, by simp, [], rfl, by simp, by simp⟩
  | ancestor hown hglobal htaken =>
    rw [Tree.climb_eq] at htaken
    obtain ⟨hid, hfound⟩ := Tree.offerInOrder_spec htaken
    obtain ⟨n, hn, ha⟩ := Tree.offer_answers hfound
    obtain ⟨new, reported, heq, hnew, hcount⟩ := reportLeaving_eq (g := g) (s := s) (p := p) _
    exact ⟨by rw [heq], by rw [heq], fun _ => by rw [heq]; exact .ancestor hown hid hn ha, by simp, new,
      by rw [heq], hnew, hcount⟩
  | refused hown hglobal htaken =>
    obtain ⟨new, reported, heq, hnew, hcount⟩ := reportLeaving_eq (g := g) (s := s) (p := p) _
    exact ⟨by rw [heq], by rw [heq], by simp, fun _ => by rw [heq]; exact ⟨rfl, rfl, hown⟩, new, by rw [heq], hnew,
      hcount⟩

theorem resolve_places (g : Grammar) (s : Settings) (r : Run) (p : Phrase) (must : Bool) :
    Places g p must r (r.resolve g s p must).1 (r.resolve g s p must).2 := (resolve_resolves g s r p must).places

/-- **The rule for placing a phrase**: what holds of the tree and is kept where a phrase is taken holds afterwards. -/
theorem resolve_tree {P : Tree → NodeId → Prop} (h : P r.tree r.active)
    (takes : ∀ {t' taker}, r.tree.Takes g r.active p t' taker → P t' taker) (s : Settings) (must : Bool) :
    P (r.resolve g s p must).1.tree (r.resolve g s p must).1.active := by
  have hplaces := resolve_places g s r p must
  cases htook : (r.resolve g s p must).2 with
  | true => exact takes (hplaces.takes htook)
  | false =>
    obtain ⟨htree, hactive, -⟩ := hplaces.refuses htook
    rw [htree, hactive]
    exact h

/-! ### Counting -/

@[simp] theorem offered_reportLeaving {taken : Bool} {l : Leaving} :
    (reportLeaving g s r p must taken l).counters.offered = r.counters.offered := by
  unfold reportLeaving
  cases l.unfinished? with
  | none => dsimp only; split <;> rfl
  | some place => dsimp only; split <;> split <;> rfl

/-- Placing a phrase offers it once to the active instance. -/
theorem offered_resolve (g : Grammar) (s : Settings) (r : Run) (p : Phrase) (must : Bool) :
    (r.resolve g s p must).1.counters.offered = r.counters.offered + 1 := by
  unfold resolve
  dsimp only
  split
  · rfl
  · split
    · rfl
    · split
      · exact offered_reportLeaving
      · exact offered_reportLeaving

end Run

end PhraseTree
