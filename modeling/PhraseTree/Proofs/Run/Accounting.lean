import PhraseTree.Proofs.Run.Arrangement
import PhraseTree.Proofs.Run.Refusal
import PhraseTree.Proofs.Run.Reporting
import PhraseTree.Session

/-!
# The counters account for a run

* `Trial.balance w` — the instances of a trial that were not set up in it.  Attempts in place keep it: whatever they cut
  back, it is one instance at a time (`Trial.balance_offer`, `Trial.balance_adopt`);
* `Tree.adopted t` — how many instances of global rules were put down in the tree;
* `Counters.Agree k t reports` — the counters agree with the tree and the reports;
* `Run.resolve_counts`: what placing a phrase adds to each side of the accounts;
* `Run.Passes.agree`: so the counters agree in every state of every run.  `Grammar.counters_agree` says all of it.
-/

namespace PhraseTree

/-! ### Attempts in place -/

namespace Trial

/-- **The instances of a trial that were not set up in it**: those that are in the tree or were given up, but for those that
were set up. -/
def balance (w : Trial) : ℤ := w.tree.size + w.dropped - w.created

@[simp] theorem balance_setUp (w : Trial) (rule : RuleId) (parent : Nat) :
    (w.setUp rule parent).balance = w.balance := by
  simp only [balance, setUp, Tree.size, Array.size_push]
  omega

@[simp] theorem balance_put (w : Trial) (id : Nat) (f : Node → Node) : (w.put id f).balance = w.balance := by
  simp [balance, put, Tree.size]

section Balance

variable {ask : Trial → Nat → Option Nat × Trial} {parent : Nat} {w w' : Trial}

/-- Giving up the only new instance is counted once. -/
theorem balance_giveUp {rule : RuleId} (h : w'.tree = (w.setUp rule parent).tree) :
    (w'.giveUp w.tree.size).balance = w'.balance := by
  rw [giveUp_eq h]
  simp only [balance, h, setUp, Tree.size, Array.size_push]
  omega

variable (hrestores : Restores ask) (hask : ∀ w id, (ask w id).2.balance = w.balance)

include hrestores hask

theorem balance_tryRules (parent : Nat) (rules : List RuleId) (w : Trial) :
    (tryRules ask parent rules w).2.balance = w.balance := by
  induction rules generalizing w with
  | nil => rfl
  | cons rule rest ih =>
    have hnew := hask (w.setUp rule parent) w.tree.size
    rw [balance_setUp] at hnew
    rw [tryRules]
    split
    · next deepest w' hfound => rwa [hfound] at hnew
    · next w' hrefused =>
      rw [hrefused] at hnew
      rw [ih, balance_giveUp (hrestores _ _ _ hrefused), hnew]

theorem balance_tryBelow (id : Nat) (rules : List RuleId) (put : Nat → Nat → Node → Node) (w : Trial) :
    (tryBelow ask id rules put w).2.balance = w.balance := by
  have hrules := balance_tryRules hrestores hask id rules w
  unfold tryBelow
  split
  · next child deepest w' hfound =>
    rw [hfound] at hrules
    exact (balance_put ..).trans hrules
  · next w' hrefused => rwa [hrefused] at hrules

theorem balance_beginPart (p : Phrase) (id i : Nat) (w : Trial) (part : Part RuleId) :
    (beginPart ask p id i w part).2.balance = w.balance := by
  unfold beginPart
  split
  · split
    · exact balance_put ..
    · rfl
  · split
    · exact balance_put ..
    · rfl
  · exact balance_tryBelow hrestores hask _ _ _ w

theorem balance_beginFrom (p : Phrase) (id i : Nat) (parts : List (Part RuleId)) (w : Trial) :
    (beginFrom ask p id i parts w).2.balance = w.balance := by
  induction parts generalizing i w with
  | nil => rfl
  | cons part rest ih =>
    have hpart := balance_beginPart hrestores hask p id i w part
    rw [beginFrom]
    split
    · next taker w' hbegun => rwa [hbegun] at hpart
    · next w' hrefused =>
      rw [hrefused] at hpart
      split
      · rw [ih, hpart]
      · exact hpart

theorem balance_extend (p : Phrase) (id : Nat) (w : Trial) (part : Part RuleId) (last : Entry) :
    (extend ask p id w part last).2.balance = w.balance := by
  unfold extend
  split
  · split
    · exact balance_put ..
    · rfl
  · split
    · exact balance_put ..
    · rfl
  · next c last =>
    unfold extendChoice
    split
    · exact balance_put ..
    · split
      · have hbelow := balance_tryBelow hrestores hask id c.candidates
          (fun child deepest (n : Node) => n.push (.child { c.slot last.part with node := child, deepest })) w
        dsimp only
        split
        · next taker w' hfound => rwa [hfound] at hbelow
        · next w' hrefused => rwa [hrefused] at hbelow
      · rfl
  · rfl

end Balance

/-- **An offer in place keeps the balance**, be the phrase taken or refused. -/
theorem balance_offer (g : Grammar) (p : Phrase) (levels : Nat) (w : Trial) (id : Nat) :
    (offer g p levels w id).2.balance = w.balance := by
  induction levels generalizing w id with
  | zero => rfl
  | succ levels ih =>
    have hfrom (i : Nat) (parts : List (Part RuleId)) (w : Trial) :
        (beginFrom (offer g p levels) p id i parts w).2.balance = w.balance :=
      balance_beginFrom (offer_restores g p levels) ih p id i parts w
    unfold offer
    split
    · rfl
    · dsimp only
      split
      · exact hfrom ..
      · next last hlast =>
        split
        · exact hfrom ..
        · split
          · rfl
          · next part hat =>
            have hextend := balance_extend (offer_restores g p levels) ih p id w part last
            split
            · next taker w' habsorbed => rwa [habsorbed] at hextend
            · next w' hblocked => rwa [hblocked] at hextend
            · next w' hrejected =>
              rw [hrejected] at hextend
              exact (hfrom ..).trans hextend

theorem balance_adopt (g : Grammar) (p : Phrase) (levels : Nat) (w : Trial) (id : Nat) :
    (adopt g p levels w id).2.balance = w.balance :=
  balance_tryBelow (offer_restores g p levels) (balance_offer g p levels) ..

end Trial

/-! ### Instances of global rules -/

theorem length_flatMap_modify {α β : Type} {f : α → List β} {put : α → α} {k : Nat}
    (hput : ∀ a, (f (put a)).length = (f a).length + k) (l : List α) (i : Nat) :
    ((l.modify i put).flatMap f).length = (l.flatMap f).length + if i < l.length then k else 0 := by
  induction l generalizing i with
  | nil => simp
  | cons a l ih =>
    cases i with
    | zero =>
      rw [List.modify_zero_cons, List.flatMap_cons, List.length_append, hput, List.flatMap_cons, List.length_append,
        List.length_cons, if_pos (Nat.zero_lt_succ _)]
      omega
    | succ i =>
      rw [List.modify_succ_cons, List.flatMap_cons, List.length_append, ih, List.flatMap_cons, List.length_append,
        List.length_cons]
      simp only [Nat.add_lt_add_iff_right, Nat.add_assoc]

namespace Tree

/-- **How many instances of global rules were put down** on behalf of the instances of the tree. -/
def adopted (t : Tree) : Nat := (t.nodes.toList.flatMap (·.globals)).length

variable {t : Tree} {id : NodeId}

theorem adopted_modify {put : Node → Node} {k : Nat} (hput : ∀ n, (put n).globals.length = n.globals.length + k) :
    (⟨t.nodes.modify id put⟩ : Tree).adopted = t.adopted + if id < t.size then k else 0 := by
  unfold adopted
  rw [Array.toList_modify, length_flatMap_modify hput]
  rfl

theorem adopted_modify_same {put : Node → Node} (hput : ∀ n, (put n).globals = n.globals) :
    (⟨t.nodes.modify id put⟩ : Tree).adopted = t.adopted := by
  rw [adopted_modify (k := 0) fun n => by rw [hput n, Nat.add_zero], ite_self, Nat.add_zero]

/-- New instances have put down none yet. -/
theorem adopted_extend (t : Tree) (id : NodeId) (growth : Growth) (put : Node → Node) :
    (t.extend id growth put).adopted = (⟨t.nodes.modify id put⟩ : Tree).adopted := by
  have hnew (parent base : NodeId) : (growth.nodes parent base).flatMap (·.globals) = [] := by
    induction growth generalizing parent base with
    | capture | fork => rfl
    | child slot rule growth ih => exact ih ..
  simp [adopted, extend, hnew]

@[simp] theorem adopted_apply (t : Tree) (id : NodeId) (c : Change) : (t.apply id c).1.adopted = t.adopted := by
  cases c with
  | replace e => exact adopted_modify_same fun _ => rfl
  | grow growth => exact (adopted_extend ..).trans (adopted_modify_same fun _ => rfl)

@[simp] theorem adopted_settle (t : Tree) (id : NodeId) : (t.settle id).adopted = t.adopted :=
  adopted_modify_same fun _ => rfl

theorem adopted_adopt (g : Grammar) (rule : RuleId) (growth : Growth) (h : id < t.size) :
    (t.adopt g id rule growth).1.adopted = t.adopted + 1 :=
  (adopted_extend ..).trans ((adopted_modify fun _ => rfl).trans (by rw [if_pos h]))

@[simp] theorem size_adopt (t : Tree) (g : Grammar) (id : NodeId) (rule : RuleId) (growth : Growth) :
    (t.adopt g id rule growth).1.size = t.size + (growth.depth + 1) :=
  (size_extend ..).trans (by simp [Growth.depth, Nat.add_comm])

end Tree

/-! ### What is counted -/

/-- **The counters agree with the tree and the reports.**  Every instance but the first was set up and not given up, every
report is counted, and so is every instance of a global rule.  A phrase that was offered has at most one of three outcomes:
it was taken by a global rule, taken by an instance around the active one, or reported as unexpected. -/
structure Counters.Agree (k : Counters) (t : Tree) (reports : List Diagnostic) : Prop where
  instances : t.size + k.dropped = 1 + k.created
  reported : k.reported = reports.length
  globals : k.globalFallbacks = t.adopted
  outcomes : k.globalFallbacks + k.ancestorFallbacks + reports.countP Diagnostic.isUnexpected ≤ k.offered

namespace Run

variable {g : Grammar} {s : Settings} {text : List Char} {r : Run}

/-- What is left behind is reported as unexpected at most once, and not at all if it was taken. -/
theorem reportLeaving_counts (g : Grammar) (s : Settings) (r : Run) (p : Phrase) (must taken : Bool) (l : Leaving) :
    ∃ new reported,
      reportLeaving g s r p must taken l =
          { r with reports := new ++ r.reports, counters := { r.counters with reported := reported } } ∧
        new.countP Diagnostic.isUnexpected ≤ 1 ∧ (taken = true → new.countP Diagnostic.isUnexpected = 0) := by
  obtain ⟨new, reported, heq, -, hcount⟩ := @reportLeaving_eq g s r p must taken l
  have hresidue : new.countP Diagnostic.isUnexpected ≤ new.countP Diagnostic.isResidue :=
    List.countP_mono_left fun d _ hd => by
      unfold Diagnostic.isUnexpected at hd
      unfold Diagnostic.isResidue
      cases hreason : d.reason <;> simp_all
  rw [hcount] at hresidue
  refine ⟨new, reported, heq, hresidue.trans (by split <;> decide), fun htaken => ?_⟩
  rw [htaken, Bool.not_true, Bool.and_false] at hresidue
  exact Nat.le_zero.mp hresidue

/-- **What placing a phrase adds to the accounts.**  Instances that are set up are kept or given up; a global rule that
takes the phrase puts down one instance; and at most one of three outcomes is counted. -/
theorem resolve_counts (g : Grammar) (s : Settings) (p : Phrase) (must : Bool) (h : r.active < r.tree.size) :
    let r' := (r.resolve g s p must).1
    r'.tree.size + r'.counters.dropped + r.counters.created =
        r.tree.size + r.counters.dropped + r'.counters.created ∧
      r'.counters.globalFallbacks + r.tree.adopted = r.counters.globalFallbacks + r'.tree.adopted ∧
      r'.counters.globalFallbacks + r'.counters.ancestorFallbacks + r'.reports.countP Diagnostic.isUnexpected ≤
        r.counters.globalFallbacks + r.counters.ancestorFallbacks + r.reports.countP Diagnostic.isUnexpected + 1 := by
  unfold resolve
  dsimp only
  split
  · next c hown =>
    have hsize := r.tree.size_apply r.active c
    have hadopted := r.tree.adopted_apply r.active c
    dsimp only [tally, change]
    refine ⟨?_, ?_, ?_⟩ <;> omega
  · next hown =>
    split
    · next rule growth hglobal =>
      have hsize := r.tree.size_adopt g r.active rule growth
      have hadopted := Tree.adopted_adopt g rule growth h
      dsimp only [tally, adopt]
      refine ⟨?_, ?_, ?_⟩ <;> omega
    · next hglobal =>
      split
      · next id c htaken =>
        have hsize := r.tree.size_apply id c
        have hadopted := r.tree.adopted_apply id c
        obtain ⟨new, reported, heq, -, hnone⟩ :=
          reportLeaving_counts g s (Run.change (Run.tally _ _ c.made) id c) p must true
            (r.tree.leaving g r.active (r.tree.climb g p r.active))
        have hnone := hnone rfl
        rw [heq]
        dsimp only [tally, change]
        rw [List.countP_append]
        refine ⟨?_, ?_, ?_⟩ <;> omega
      · next htaken =>
        obtain ⟨new, reported, heq, hone, -⟩ :=
          reportLeaving_counts g s (Run.tally _ _ 0) p must false
            (r.tree.leaving g r.active (r.tree.climb g p r.active))
        rw [heq]
        dsimp only [tally]
        rw [List.countP_append]
        refine ⟨?_, ?_, ?_⟩ <;> omega

/-- **Placing a phrase keeps the counters in agreement.** -/
theorem resolve_agree (h : r.counters.Agree r.tree r.reports) (hactive : r.active < r.tree.size) (g : Grammar)
    (s : Settings) (p : Phrase) (must : Bool) :
    let r' := (r.resolve g s p must).1
    r'.counters.Agree r'.tree r'.reports := by
  obtain ⟨hinstances, hglobals, houtcomes⟩ := resolve_counts g s p must hactive
  have hoffered := offered_resolve g s r p must
  have hreported : ((r.resolve g s p must).1).Counts := Counts.resolve h.reported
  obtain ⟨hsize, -, hadopted, hle⟩ := h
  exact ⟨by omega, hreported, by omega, by omega⟩

/-- **The counters agree in every state of every run.** -/
theorem Passes.agree (h : Passes g s text r) : r.counters.Agree r.tree r.reports := by
  suffices hboth : r.tree.Arranged r.active ∧ r.counters.Agree r.tree r.reports from hboth.2
  refine h.rule (P := fun r => r.tree.Arranged r.active ∧ r.counters.Agree r.tree r.reports) (fun hr => hr) ?_ ?_ ?_ ?_
  · intro r p must ⟨ha, hagree⟩
    exact ⟨resolve_arranged ha g s p must, resolve_agree hagree ha.active_lt g s p must⟩
  · intro r ⟨ha, hagree⟩
    obtain ⟨hsize, hreported, hadopted, hle⟩ := hagree
    rw [← r.tree.size_settle r.active] at hsize
    rw [← r.tree.adopted_settle r.active] at hadopted
    exact ⟨ha.settle, hsize, hreported, hadopted, hle⟩
  · intro r d hd ⟨ha, hsize, hreported, hadopted, hle⟩
    refine ⟨ha, hsize, congrArg (· + 1) hreported, hadopted, ?_⟩
    show _ + _ + (d :: r.reports).countP Diagnostic.isUnexpected ≤ _
    rwa [List.countP_cons_of_neg (by simp [hd])]
  · exact ⟨Tree.root_arranged, rfl, rfl, rfl, Nat.le_refl 0⟩

end Run

/-- The counters agree with the reports in the order of the text just as well. -/
theorem Counters.Agree.reverse {k : Counters} {t : Tree} {reports : List Diagnostic} (h : k.Agree t reports) :
    k.Agree t reports.reverse :=
  ⟨h.instances, by rw [List.length_reverse, h.reported], h.globals, by rw [List.countP_reverse]; exact h.outcomes⟩

/-- **The counters account for a run.**  In every state of every run, and in its outcome if counters were asked for: every
instance but the first was set up and not given up; every report is counted; every instance of a global rule is counted;
and no phrase that was offered has more than one of the outcomes that are counted.  Phrases may just as well be placed
with attempts in place, which set up and give up instances inside each other: whatever is tried, all that is left in the
tree is what was set up and not given up. -/
theorem Grammar.counters_agree (g : Grammar) :
    (∀ s text r, Run.Passes g s text r → r.counters.Agree r.tree r.reports) ∧
      (∀ settings text o k, g.outcome settings text = .ok o → o.counters? = some k →
        settings.collectStats = true ∧ k.Agree o.tree o.reports) ∧
      -- in place
      (∀ s text r, Run.Passes g s text r → ∀ p must, r.resolve g s p must = r.attempt g s p must) ∧
      ∀ p levels w id, (Trial.offer g p levels w id).2.balance = w.balance ∧
        (Trial.adopt g p levels w id).2.balance = w.balance := by
  refine ⟨fun s text r h => h.agree, fun settings text o k ho hk => ?_, fun s text r h p must => ?_,
    fun p levels w id => ⟨Trial.balance_offer .., Trial.balance_adopt ..⟩⟩
  · rw [Grammar.outcome_eq] at ho
    cases hread : g.read? settings text.toList with
    | none =>
      rw [hread] at ho
      cases ho
    | some r =>
      rw [hread] at ho
      cases ho
      obtain ⟨hstats, hcounters⟩ := Option.ite_none_right_eq_some.mp hk
      cases hcounters
      exact ⟨hstats, (Grammar.read?_passes hread).agree.reverse⟩
  · exact Run.resolve_eq_attempt s p must h.tree_conforms.1 h.tree_arranged.active_lt

namespace Nested

/-- A text of two pairs, the second one inside the first, and a phrase that nothing takes. -/
def text : List Char := ['a', ' ', 'b', ';', '!']

/-- A global rule takes the second name, the pair around it the semicolon, and the last phrase is reported.  All of them
are counted, and so are the instances that were tried on the way. -/
theorem agree_pairs :
    ∃ r, grammar.read? {} text = some r ∧ r.tree.size = 5 ∧ r.counters.globalFallbacks = 1 ∧
      r.counters.ancestorFallbacks = 1 ∧ r.reports.countP Diagnostic.isUnexpected = 1 ∧
      r.counters.Agree r.tree r.reports ∧ r.resolve grammar {} stop true = r.attempt grammar {} stop true ∧
      ∃ o k, grammar.outcome {} (String.ofList text) = .ok o ∧ o.counters? = some k ∧ k.Agree o.tree o.reports := by
  obtain ⟨hstates, houtcome, hplaced, -⟩ := grammar.counters_agree
  have hcounts : (grammar.read? {} text).map (fun r => (r.tree.size, r.counters.globalFallbacks,
      r.counters.ancestorFallbacks, r.reports.countP Diagnostic.isUnexpected)) = some (5, 1, 1, 1) := by decide +kernel
  obtain ⟨r, hread, hcounts⟩ := Option.map_eq_some_iff.mp hcounts
  simp only [Prod.mk.injEq] at hcounts
  obtain ⟨hsize, hglobal, hancestor, hunexpected⟩ := hcounts
  have hpasses := Grammar.read?_passes hread
  have hresult : grammar.outcome {} (String.ofList text) = .ok ⟨r.tree, r.reports.reverse, some r.counters⟩ := by
    rw [Grammar.outcome_eq, String.toList_ofList, hread]
    rfl
  exact ⟨r, hread, hsize, hglobal, hancestor, hunexpected, hstates _ _ _ hpasses, hplaced _ _ _ hpasses stop true, _, _,
    hresult, rfl, (houtcome _ _ _ _ hresult rfl).2⟩

end Nested

end PhraseTree
