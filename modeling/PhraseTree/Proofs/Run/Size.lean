import PhraseTree.Proofs.Run.Reached
import PhraseTree.Proofs.Run.Refusal
import PhraseTree.Proofs.Tree.Nesting

/-!
# How large a tree becomes

Every phrase that is placed adds at most as many instances as there are rules (`Run.size_resolve_le`), so a tree is
bounded by the number of phrases offered (`Run.Passes.size_le`).  `Grammar.attempts_bounded` says this together with
what is shown of nested attempts: they end, no rule occurs twice in a nest, and a nest is no deeper than the grammar has
rules.
-/

namespace PhraseTree

namespace Run

variable {g : Grammar} {s : Settings} {r : Run} {p : Phrase} {must : Bool} {text : List Char}

/-- **A phrase that is placed adds at most as many instances as there are rules.** -/
theorem size_resolve_le (g : Grammar) (s : Settings) (r : Run) (p : Phrase) (must : Bool) :
    (r.resolve g s p must).1.tree.size ≤ r.tree.size + g.size := by
  have hplaces := resolve_places g s r p must
  cases htaken : (r.resolve g s p must).2 with
  | true => exact (hplaces.takes htaken).size_le
  | false =>
    rw [(hplaces.refuses htaken).1]
    exact Nat.le_add_right _ _

/-- **Throughout a run the tree is bounded by the phrases offered.** -/
theorem Passes.size_le (h : Passes g s text r) : r.tree.size ≤ 1 + g.size * r.counters.offered := by
  refine h.rule (P := fun r => r.tree.size ≤ 1 + g.size * r.counters.offered) (fun hr => hr) ?_ ?_ (fun _ hr => hr) ?_
  · intro r p must hr
    have hle := size_resolve_le g s r p must
    rw [offered_resolve, Nat.mul_succ]
    omega
  · intro r hr
    rwa [Tree.size_settle]
  · exact Nat.le_add_right _ _

end Run

/-- **Attempts end, and are bounded by the number of rules.**

Offering a phrase to an instance, trying candidates below one, trying global rules on its behalf, and searching a new
instance never come to the bound on the nesting: whatever would be answered there, the outcome is the same.  An offer
asks nested new instances only, and the rules of nested instances are distinct, so there are never more of them than
rules, neither while a phrase is tried nor in the tree that is kept.  After a run, and at every point of it, the tree has
at most as many instances as one and, for each phrase offered, one for each rule. -/
theorem Grammar.attempts_bounded (g : Grammar) (p : Phrase) :
    ((∀ stop w id, (Trial.answer g p)^[g.size + 1] stop w id = Trial.offer g p (g.size + 1) w id) ∧
      (∀ stop parent rules w, Trial.tryRules ((Trial.answer g p)^[g.size] stop) parent rules w =
        Trial.tryRules (Trial.offer g p g.size) parent rules w) ∧
      (∀ stop w id put, Trial.tryBelow ((Trial.answer g p)^[g.size] stop) id g.global.candidates put w =
        Trial.tryBelow (Trial.offer g p g.size) id g.global.candidates put w) ∧
      ∀ stop, (growWith g p)^[g.size] stop = g.sprout p) ∧
    -- what is asked
    ((∀ ask ask', Trial.Restores ask → ∀ w id,
        (∀ rule w', Trial.Nests g w.tree [rule] w' → ask w' (w'.tree.size - 1) = ask' w' (w'.tree.size - 1)) →
        Trial.answer g p ask w id = Trial.answer g p ask' w id) ∧
      (∀ ask ask', Trial.Restores ask → ∀ parent rules w,
        (∀ rule w', Trial.Nests g w.tree [rule] w' → ask w' (w'.tree.size - 1) = ask' w' (w'.tree.size - 1)) →
        Trial.tryRules ask parent rules w = Trial.tryRules ask' parent rules w) ∧
      (∀ ask ask', Trial.Restores ask → ∀ t a line w, Trial.Nests g t (a :: line) w →
        (∀ b w', Trial.Nests g t (b :: a :: line) w' → ask w' (w'.tree.size - 1) = ask' w' (w'.tree.size - 1)) →
        Trial.answer g p ask w (w.tree.size - 1) = Trial.answer g p ask' w (w.tree.size - 1)) ∧
      ∀ t line w, Trial.Nests g t line w →
        line.Nodup ∧ line.length ≤ g.size ∧ w.tree.size = t.size + line.length) ∧
    -- what is kept
    ((∀ levels w id, (Trial.offer g p levels w id).2.tree.size ≤ w.tree.size + g.size) ∧
      (∀ levels parent rules w,
        (Trial.tryRules (Trial.offer g p levels) parent rules w).2.tree.size ≤ w.tree.size + g.size) ∧
      (∀ levels w id, (Trial.adopt g p levels w id).2.tree.size ≤ w.tree.size + g.size) ∧
      ∀ s (r : Run) must, (r.resolve g s p must).1.tree.size ≤ r.tree.size + g.size) ∧
    -- whole runs
    (∀ s text r, Run.Passes g s text r → r.tree.size ≤ 1 + g.size * r.counters.offered) ∧
    ∀ s text r, g.read? s text = some r → r.tree.size ≤ 1 + g.size * r.counters.offered := by
  refine ⟨⟨?_, ?_, ?_, ?_⟩, ⟨?_, ?_, ?_, ?_⟩, ⟨?_, ?_, ?_, ?_⟩, ?_, ?_⟩
  · exact fun stop w id => Trial.answer_iterate stop le_rfl w id
  · exact fun stop parent rules w => Trial.tryRules_iterate stop le_rfl parent rules w
  · exact fun stop w id put => Trial.tryBelow_iterate stop le_rfl id _ put w
  · exact fun stop => g.sprout_iterate stop le_rfl
  · intro ask ask' hask w id h
    refine Trial.answer_congr hask fun rule w₁ hw₁ => ?_
    have hnest := h rule _ (.outermost rule id hw₁)
    rwa [Trial.size_setUp] at hnest
  · intro ask ask' hask parent rules w h
    refine Trial.tryRules_congr hask fun rule _ w₁ hw₁ => ?_
    have hnest := h rule _ (.outermost rule parent hw₁)
    rwa [Trial.size_setUp] at hnest
  · exact fun ask ask' hask t a line w h heq => h.answer_congr hask heq
  · exact fun t line w h => ⟨h.nodup, h.length_le, h.size_eq⟩
  · exact Trial.size_offer_le
  · exact Trial.size_tryRules_le
  · exact fun levels w id => Trial.size_tryBelow_le levels id _ _ w
  · exact fun s r must => Run.size_resolve_le g s r p must
  · exact fun s text r h => h.size_le
  · exact fun s text r h => (Grammar.read?_passes h).size_le

namespace Nested

/-- An instance that would answer otherwise where there is no instance at all. -/
def elsewhere (w : Trial) (id : Nat) : Option Nat × Trial :=
  if w.tree.size = 0 then (some 0, w) else Trial.offer grammar stop 3 w id

/-- A pair and its key are nested in each other and no deeper; a text of two phrases that makes them stays within its
bound. -/
theorem bounded_pair :
    Trial.answer grammar stop (Trial.offer grammar stop 3) untried 0 = Trial.answer grammar stop elsewhere untried 0 ∧
      Trial.tryRules (Trial.offer grammar stop 3) 0 [1] untried = Trial.tryRules elsewhere 0 [1] untried ∧
      (∃ w, Trial.Nests grammar .root [1] w ∧
        Trial.answer grammar stop (Trial.offer grammar stop 3) w 1 = Trial.answer grammar stop elsewhere w 1) ∧
      (∃ w, Trial.Nests grammar .root [2, 1] w ∧ [2, 1].length ≤ grammar.size ∧ w.tree.size = 3) ∧
      Run.Passes grammar {} ['a', ';'] {} ∧ ({} : Run).tree.size ≤ 1 ∧
      ∃ r, grammar.read? {} ['a', ';'] = some r ∧ r.tree.size = 3 ∧ r.tree.size ≤ 1 + 3 * r.counters.offered := by
  obtain ⟨-, ⟨hoffer, htry, hnested, hnest⟩, -, hpasses, hread⟩ := grammar.attempts_bounded stop
  have hrestores : Trial.Restores (Trial.offer grammar stop 3) := Trial.offer_restores grammar stop 3
  have hsame : ∀ line w, Trial.Nests grammar .root line w →
      Trial.offer grammar stop 3 w (w.tree.size - 1) = elsewhere w (w.tree.size - 1) := by
    intro line w h
    have hsize : w.tree.size ≠ 0 := by
      rw [h.size_eq]
      exact Nat.ne_of_gt (Nat.lt_of_lt_of_le Nat.one_pos (Nat.le_add_right _ _))
    rw [elsewhere, if_neg hsize]
  have hpair : Trial.Nests grammar .root [1] (untried.setUp 1 0) := .outermost 1 0 rfl
  have hkey : Trial.Nests grammar .root [2, 1] ((untried.setUp 1 0).setUp 2 1) := hpair.nested (by decide) rfl
  have hstart : Run.Passes grammar {} ['a', ';'] {} := .reached .start
  have hresult : (grammar.read? {} ['a', ';']).isSome = true := by decide +kernel
  obtain ⟨r, hr⟩ := Option.isSome_iff_exists.mp hresult
  have hthree : (grammar.read? {} ['a', ';']).map (·.tree.size) = some 3 := by decide +kernel
  rw [hr] at hthree
  refine ⟨hoffer _ elsewhere hrestores untried 0 fun rule w' => hsame _ w',
    htry _ elsewhere hrestores 0 [1] untried fun rule w' => hsame _ w',
    ⟨_, hpair, hnested _ elsewhere hrestores _ 1 [] _ hpair fun b w' => hsame _ w'⟩,
    ⟨_, hkey, (hnest _ _ _ hkey).2.1, (hnest _ _ _ hkey).2.2⟩, hstart, hpasses _ _ _ hstart,
    r, hr, Option.some.inj hthree, hread _ _ _ hr⟩

end Nested

end PhraseTree
