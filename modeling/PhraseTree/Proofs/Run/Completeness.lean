import PhraseTree.Proofs.Run.Arrangement

/-!
# Clean runs are complete

An instance that still needs something may be left; then an unfinished rule is reported.  Once it is left, an instance
does not change any more, so in every state the instances that need something stand around the active one, unless an
unfinished rule was reported (`Run.Passes.leaves_complete`).  At the end of the text those are looked at as well, so a
text without such a report is read to a tree in which no instance needs anything (`Grammar.read?_complete`).
-/

namespace PhraseTree

/-! ### What is reported of the instances that are left -/

namespace Tree

variable {g : Grammar} {t : Tree} {p : Phrase} {id active j : Nat} {change : Change}

/-- What is left when an instance around the active one takes a phrase is the active one or refused it. -/
theorem mem_left_of_climb (ho : t.Ordered) (h : (t.climb g p active).taken? = some (id, change))
    (hj : j ∈ t.chain active) (hleft : j ∉ t.chain id) : j ∈ active :: (t.climb g p active).refused := by
  rw [climb_eq] at h ⊢
  obtain ⟨rest, hrest, -⟩ := offerInOrder_refused h
  have hchain : t.chain active = active :: (t.offerInOrder g p (t.ancestors active)).refused ++ id :: rest :=
    congrArg (active :: ·) hrest
  rw [ho.chain_of_append hchain] at hleft
  rw [hchain] at hj
  exact (List.mem_append.mp hj).resolve_right hleft

end Tree

namespace Run

variable {g : Grammar} {s : Settings} {text : List Char} {r : Run} {p : Phrase} {must taken : Bool}

/-- An unfinished rule was reported. -/
def ReportsUnfinished (r : Run) : Prop := ∃ d ∈ r.reports, ∃ place, d.reason = .unfinishedRule place

theorem ReportsUnfinished.mono {r' : Run} (h : r.ReportsUnfinished) (hr : r.reports ⊆ r'.reports) :
    r'.ReportsUnfinished := by
  obtain ⟨d, hd, hplace⟩ := h
  exact ⟨d, hr hd, hplace⟩

theorem ReportsUnfinished.reportLeaving (h : r.ReportsUnfinished) (l : Leaving) :
    (Run.reportLeaving g s r p must taken l).ReportsUnfinished := by
  obtain ⟨new, reported, heq, -, -⟩ := @reportLeaving_eq g s r p must taken l
  rw [heq]
  exact h.mono (List.subset_append_right new r.reports)

/-- Where a phrase is taken and an instance that needs something is left, this is reported. -/
theorem reportLeaving_of_unfinished {l : Leaving} {place : Place} (h : l.unfinished? = some place) :
    (reportLeaving g s r p must true l).ReportsUnfinished := by
  unfold reportLeaving
  simp only [h, Bool.or_true, if_true]
  exact ⟨_, List.mem_cons_self, place, rfl⟩

/-- **What was left is complete**, or an unfinished rule was reported. -/
def LeavesComplete (g : Grammar) (r : Run) : Prop :=
  ∀ id n, r.tree.node? id = some n → id ∉ r.tree.chain r.active → n.needsMore g = true → r.ReportsUnfinished

theorem LeavesComplete.graft {r' : Run} {n n' : Node} {depth : Nat} (h : r.LeavesComplete g) (ho : r.tree.Ordered)
    (hgraft : r.tree.Graft r.active n n' depth r'.tree r'.active) (hreports : r.reports ⊆ r'.reports) :
    r'.LeavesComplete g := by
  intro id m hm hid hneeds
  obtain ⟨hold, hleft⟩ := hgraft.of_not_mem_chain ho hm hid
  exact (h id m hold hleft hneeds).mono hreports

theorem LeavesComplete.resolve (h : r.LeavesComplete g) (ha : r.tree.Arranged r.active) :
    (r.resolve g s p must).1.LeavesComplete g := by
  have hresolves := resolve_resolves g s r p must
  generalize (r.resolve g s p must).1 = r', (r.resolve g s p must).2 = taken at hresolves ⊢
  cases hresolves with
  | own hown =>
    obtain ⟨n, hn, hanswers⟩ := Tree.offer_answers hown
    exact h.graft ha.ordered (Tree.graft_apply hn hanswers) (List.Subset.refl _)
  | global hown hglobal =>
    obtain ⟨n, hn⟩ := Tree.node?_of_lt ha.active_lt
    obtain ⟨x, hgraft⟩ := Tree.graft_adopt g hn _ _
    exact h.graft ha.ordered hgraft (List.Subset.refl _)
  | refused hown hglobal htaken =>
    obtain ⟨new, reported, heq, -, -⟩ := reportLeaving_eq (g := g) (s := s) (p := p) _
    rw [heq]
    intro id m hm hid hneeds
    exact (h id m hm hid hneeds).mono (List.subset_append_right new r.reports)
  | @ancestor id change counters hown hglobal htaken =>
    obtain ⟨n, hn, hanswers⟩ := Tree.offer_answers (Tree.offerInOrder_spec (by rwa [← Tree.climb_eq])).2
    have hgraft := Tree.graft_apply hn hanswers
    obtain ⟨new, reported, heq, -, -⟩ := reportLeaving_eq (g := g) (s := s) (p := p) _
    intro j m hm hj hneeds
    rw [heq] at hm hj
    obtain ⟨hold, hleft⟩ := hgraft.of_not_mem_chain ha.ordered hm hj
    by_cases hchain : j ∈ r.tree.chain r.active
    · -- it is left just now, so it is among those that are looked at
      have hmem := Tree.mem_left_of_climb ha.ordered htaken hchain hleft
      have hneeds : r.tree.needsMore g j = true := by simp [Tree.needsMore, hold, hneeds]
      obtain ⟨first, hfirst⟩ := Option.isSome_iff_exists.mp (List.find?_isSome.mpr ⟨j, hmem, hneeds⟩)
      have hfound : (r.tree.leaving g r.active (r.tree.climb g p r.active)).unfinished? =
          some (r.tree.place g first) := by simp only [Tree.leaving, hfirst, Option.map_some]
      exact reportLeaving_of_unfinished hfound
    · refine ReportsUnfinished.reportLeaving ?_ _
      exact (h j m hold hchain hneeds).mono (List.Subset.refl r.reports)

/-- **In every state, what was left is complete** or was reported. -/
theorem Passes.leaves_complete (h : Passes g s text r) : r.LeavesComplete g := by
  suffices hboth : r.tree.Arranged r.active ∧ r.LeavesComplete g from hboth.2
  refine h.rule (P := fun r => r.tree.Arranged r.active ∧ r.LeavesComplete g) (fun hr => hr) ?_ ?_ ?_ ?_
  · intro r p must ⟨ha, hleft⟩
    exact ⟨resolve_arranged ha g s p must, hleft.resolve ha⟩
  · intro r ⟨ha, hleft⟩
    obtain ⟨n, hn⟩ := Tree.node?_of_lt ha.active_lt
    refine ⟨ha.settle, ?_⟩
    exact hleft.graft ha.ordered (Tree.graft_settle hn) (List.Subset.refl _)
  · intro r d _ ⟨ha, hleft⟩
    refine ⟨ha, fun id n hn hid hneeds => ?_⟩
    exact (hleft id n hn hid hneeds).mono (List.subset_cons_self d r.reports)
  · refine ⟨Tree.root_arranged, fun (id : Nat) n hn hid hneeds => absurd ?_ hid⟩
    have hlt : id < Tree.root.size := Tree.lt_size_of_node? hn
    have hsize : Tree.root.size = 1 := rfl
    obtain rfl : id = 0 := by omega
    exact Tree.root.mem_chain_self 0

theorem reportEnd_of_needsMore {id : NodeId} (hid : id ∈ r.tree.chain r.active) (h : r.tree.needsMore g id = true) :
    (r.reportEnd g s).ReportsUnfinished := by
  obtain ⟨first, hfirst⟩ := Option.isSome_iff_exists.mp (List.find?_isSome.mpr ⟨id, hid, h⟩)
  simp only [reportEnd, hfirst]
  exact ⟨_, List.mem_cons_self, _, rfl⟩

end Run

/-- **A text without a report about an unfinished rule is read to complete instances**, if the end of the text is
looked at; and no instance that needs something is ever left without such a report. -/
theorem Grammar.read?_complete (g : Grammar) (s : Settings) (text : List Char) :
    (∀ r, Run.Passes g s text r → ∀ id n, r.tree.node? id = some n → id ∉ r.tree.chain r.active →
        n.needsMore g = true → r.ReportsUnfinished) ∧
      (s.reportUnfinished = true → ∀ r, g.read? s text = some r → ¬ r.ReportsUnfinished →
        ∀ id n, r.tree.node? id = some n → n.needsMore g = false) := by
  refine ⟨fun r hr => hr.leaves_complete, ?_⟩
  intro hs r hread hclean id n hn
  obtain ⟨r₀, taken, hends, rfl⟩ := read?_reached hread
  rw [if_pos hs] at hn hclean
  obtain ⟨htree, -, hreports⟩ := r₀.reportEnd_cases g s
  rw [htree] at hn
  by_contra hneeds
  have hneeds : n.needsMore g = true := by simpa using hneeds
  -- at the end of the text the instances around the active one are looked at; the others were when they were left
  by_cases hid : id ∈ r₀.tree.chain r₀.active
  · exact hclean (Run.reportEnd_of_needsMore hid (by simp [Tree.needsMore, hn, hneeds]))
  · have hkept : r₀.reports ⊆ (r₀.reportEnd g s).reports := by
      rcases hreports with hsame | ⟨place, trail, hmore⟩
      · rw [hsame]
        exact List.Subset.refl _
      · rw [hmore]
        exact List.subset_cons_self _ _
    exact hclean (((Run.Passes.reached hends.reached).leaves_complete id n hn hid hneeds).mono hkept)

theorem Listing.complete_listing :
    ∃ r, (grammar false).read? { reportUnfinished := true } ['a', ' ', '1', ' ', 'b', '<', 'c', '>'] = some r ∧
      ¬ r.ReportsUnfinished ∧ ∀ id n, r.tree.node? id = some n → n.needsMore (grammar false) = false := by
  have hclean : ((grammar false).read? { reportUnfinished := true } ['a', ' ', '1', ' ', 'b', '<', 'c', '>']).map
      (·.reports.isEmpty) = some true := by decide +kernel
  obtain ⟨r, hread, hreports⟩ := Option.map_eq_some_iff.mp hclean
  have hreports : r.reports = [] := List.isEmpty_iff.mp hreports
  have hnone : ¬ r.ReportsUnfinished := by
    rintro ⟨d, hd, -⟩
    rw [hreports] at hd
    cases hd
  exact ⟨r, hread, hnone, (Grammar.read?_complete _ _ _).2 rfl r hread hnone⟩

end PhraseTree
