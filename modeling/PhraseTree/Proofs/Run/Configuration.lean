import PhraseTree.Proofs.Capture.Shift
import PhraseTree.Proofs.Run.Reporting

/-!
# Settings change reports only

Two runs of one text under different settings are alike: what each reports is a list of reports that does not depend on the
settings, with every trail cut to the length that they allow, and what is unfinished at the end if they ask for it
(`Grammar.settings_only_report`).
-/

namespace PhraseTree

namespace Run

variable {g : Grammar} {A B : Settings} {text : List Char} {a b : Run} {took : List Phrase}

/-- Both histories are the same but for the lengths of trails, and all of it is told by the run. -/
def Cut (g : Grammar) (A B : Settings) (text : List Char) (l l' : List Diagnostic) : Prop :=
  ∃ told : List Diagnostic, (∀ d ∈ told, d.Told g A text) ∧ l = told.map (·.cut A) ∧ l' = told.map (·.cut B)

theorem Cut.admits {d : Diagnostic} (hd : d.Told g A text) : Admits (Cut g A B text) A B d := by
  rintro l l' ⟨told, htold, rfl, rfl⟩
  exact ⟨d :: told, List.forall_mem_cons.mpr ⟨hd, htold⟩, rfl, rfl⟩

/-- What is unfinished at the end of the text, if the settings ask for it. -/
def closing (g : Grammar) (s : Settings) (r : Run) : List Diagnostic :=
  if s.reportUnfinished then (r.ending? g).toList else []

theorem finish_eq (g : Grammar) (s : Settings) (r : Run) : ∃ reported,
    r.finish g s =
      (r.flush g s).retold (((r.flush g s).closing g s).map (·.cut s) ++ (r.flush g s).reports) reported := by
  unfold finish closing
  dsimp only
  split
  · rw [reportEnd_eq]
    cases (r.flush g s).ending? g with
    | none => exact ⟨_, rfl⟩
    | some d => exact ⟨_, rfl⟩
  · exact ⟨_, rfl⟩

theorem Alike.closes (h : Alike (Cut g A B text) a b) (hr : Reached g A text a took []) :
    ∃ told : List Diagnostic, (∀ d ∈ told, d.Told g A text) ∧
      (a.finish g A).reports = ((a.finish g A).closing g A ++ told).map (·.cut A) ∧
      b.finish g B = (a.finish g A).retold (((a.finish g A).closing g B ++ told).map (·.cut B))
        (b.finish g B).counters.reported := by
  have hflush := h.flush_end (fun _ => Cut.admits) hr
  obtain ⟨n, ha⟩ := finish_eq g A a
  obtain ⟨m, hb⟩ := finish_eq g B b
  rw [ha, hb]
  generalize a.flush g A = x, b.flush g B = y at hflush
  cases hflush with
  | mk h =>
    obtain ⟨told, htold, hreports, rfl⟩ := h
    refine ⟨told, htold, ?_, ?_⟩
    · rw [List.map_append, ← hreports]
      rfl
    · rw [List.map_append]
      rfl

end Run

/-- **Settings change reports only.**  Under any two settings either a text comes to its end or it does not, and the
results are the same, instances, numbers, spans and counts, but for the reports and how many they are.  The reports of
both come from one list: those that the turns of the run give rise to, each with all instances that were asked in its
trail.  Under either settings the trails are cut to the length that these allow, so the shorter of two is the beginning of
the longer.  The report about the end of the text, about the innermost instance around the active one that needs more,
is made if there is one and the settings ask for it. -/
theorem Grammar.settings_only_report (g : Grammar) (A B : Settings) (text : List Char) :
    Option.Rel (fun a b => ∃ told : List Diagnostic, (∀ d ∈ told, d.Told g A text) ∧
        a.reports = (a.closing g A ++ told).map (·.cut A) ∧
        b = { a with
          reports := (a.closing g B ++ told).map (·.cut B)
          counters := { a.counters with reported := b.counters.reported } })
      (g.read? A text) (g.read? B text) := by
  have hstart : Run.Alike (Run.Cut g A B text) {} {} := .mk ⟨[], by simp, rfl, rfl⟩
  have hreached : ∃ took, Run.Reached g A text {} took (text ++ []) := ⟨[], by rw [List.append_nil]; exact .start⟩
  have hall := hstart.readAll (fun _ => Run.Cut.admits) (allowance text.length) hreached
  exact rel_map hall fun a b ⟨halike, took, htook⟩ => halike.closes htook

end PhraseTree
