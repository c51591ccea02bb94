import PhraseTree.Proofs.Run.Conformity
import PhraseTree.Proofs.Run.Tracking
import Mathlib.Data.List.Nodup

/-!
# Grammars whose runs are calm

Whether a run is calm depends on the text.  A grammar in which a path that gives something back never stands beside
another path with a text, as far as `keep` allows that path, has calm runs only (`Grammar.Apart.calm`).
-/

namespace PhraseTree

/-- The paths of alternatives. -/
def Part.paths : Part RuleId → List Path
  | .alternatives a => a.paths
  | .simple _ | .choice _ => []

/-- If one of the paths gives something back, the other has no text, or `keep` leaves it aside. -/
def Path.Spares (keep : Path → Prop) (path other : Path) : Prop :=
  (path.HandsBack → keep other → ¬ other.HasText) ∧ (other.HandsBack → keep path → ¬ path.HasText)

instance (keep : Path → Prop) [DecidablePred keep] (path other : Path) : Decidable (path.Spares keep other) :=
  inferInstanceAs (Decidable (_ ∧ _))

/-- Paths that give something back are kept apart from other paths with texts. -/
def Grammar.Apart (g : Grammar) (keep : Path → Prop) : Prop :=
  ∀ rule ∈ g.rules, ∀ part ∈ rule.parts, part.paths.Pairwise (Path.Spares keep)

instance (g : Grammar) (keep : Path → Prop) [DecidablePred keep] : Decidable (g.Apart keep) :=
  inferInstanceAs (Decidable (∀ rule ∈ g.rules, _))

/-- No path gives anything back. -/
def Grammar.KeepsPaths (g : Grammar) : Prop :=
  ∀ rule ∈ g.rules, ∀ part ∈ rule.parts, ∀ path ∈ part.paths, ¬ path.HandsBack

instance (g : Grammar) : Decidable g.KeepsPaths := inferInstanceAs (Decidable (∀ rule ∈ g.rules, _))

variable {g : Grammar} {keep : Path → Prop} {parts : List (Part RuleId)} {e : Entry} {part : SimplePart} {c : Capture}

theorem Grammar.KeepsPaths.apart (h : g.KeepsPaths) : g.Apart keep := by
  intro rule hrule part hpart
  refine List.pairwise_iff_forall_sublist.mpr fun {path other} hsub => ?_
  have hmem := hsub.subset
  exact ⟨fun hgives => absurd hgives (h rule hrule part hpart path (hmem (by simp))),
    fun hgives => absurd hgives (h rule hrule part hpart other (hmem (by simp)))⟩

theorem Path.Spares.symm {path other : Path} (h : path.Spares keep other) : other.Spares keep path := ⟨h.2, h.1⟩

theorem Grammar.Apart.spares {rule : RuleId} {a : Alternatives} {i j : Nat} {path other : Path} (h : g.Apart keep)
    (ha : .alternatives a ∈ g.parts rule) (hi : a.paths[i]? = some path) (hj : a.paths[j]? = some other) (hne : i ≠ j) :
    path.Spares keep other := by
  have hpairwise : a.paths.Pairwise (Path.Spares keep) := by
    unfold parts at ha
    split at ha
    · next r hr => exact h r (List.mem_of_getElem? hr) _ ha
    · cases ha
  obtain ⟨hi', rfl⟩ := List.getElem?_eq_some_iff.mp hi
  obtain ⟨hj', rfl⟩ := List.getElem?_eq_some_iff.mp hj
  rcases Nat.lt_or_gt_of_ne hne with hlt | hlt
  · exact List.pairwise_iff_getElem.mp hpairwise i j hi' hj' hlt
  · exact (List.pairwise_iff_getElem.mp hpairwise j i hj' hi' hlt).symm

/-- **Nothing is open in an entry that gives something back**, where its paths are kept apart. -/
theorem Entry.Has.inText_of_toReread? (h : e.Has parts keep part c) (he : e.Fits parts) (hback : e.toReread?.isSome)
    (hspares : ∀ a (i j : Nat) (path other : Path), .alternatives a ∈ parts → a.paths[i]? = some path →
      a.paths[j]? = some other → i ≠ j → path.Spares keep other) : c.inText = false := by
  by_contra hin
  have hin : c.inText = true := by simpa using hin
  have hholds := h.holds he
  have hnone : c.toReread? = none := by simp [Capture.toReread?, hholds.handBack?_of_inText hin]
  cases h with
  | own hat =>
    rw [Entry.toReread?, hnone] at hback
    cases hback
  | @branch f a b other c part hat hb hother hkeep hc hpart =>
    obtain ⟨a', hat', hf⟩ := he
    cases hat.symm.trans hat'
    obtain ⟨⟨phrase, start⟩, hback⟩ := Option.isSome_iff_exists.mp hback
    obtain ⟨b', hb', hback⟩ := List.exists_of_findSome?_eq_some hback
    obtain ⟨c', hlast, hback⟩ := Option.bind_eq_some_iff.mp hback
    obtain ⟨path, hpath, hprog⟩ := hf.progress b' hb'
    obtain ⟨part', hpart', hholds'⟩ := hprog.holds c' (List.mem_of_mem_head? hlast)
    have hphrase : c'.handBack? = some phrase := by
      have : c'.handBack? = some phrase ∧ c'.span.stop = start := by simpa [Capture.toReread?] using hback
      exact this.1
    obtain ⟨t', rfl, hgives, -⟩ := hholds'.text_of_handBack hphrase
    obtain ⟨t, rfl⟩ := hholds.text_of_inText hin
    by_cases hsame : b'.path = b.path
    · -- the branch that gives something back is the one with the open text
      have hbb : b' = b := List.inj_on_of_nodup_map hf.distinct hb' hb hsame
      subst hbb
      cases hpath.symm.trans hother
      rw [Branch.last?, hprog.head?_of_inText hc hin] at hlast
      cases hlast
      rw [hback] at hnone
      cases hnone
    · exact (hspares a _ _ path other (List.mem_of_getElem? hat) hpath hother hsame).1
        ⟨t', List.mem_of_getElem? hpart', hgives⟩ hkeep ⟨t, List.mem_of_getElem? hpart⟩

/-- **Where paths that give something back are kept apart, every run is calm.** -/
theorem Grammar.Apart.calm (h : g.Apart keep) (s : Settings) (text : List Char) : g.Calm s keep text := by
  intro r taken ch rest r' taken' again hr hread hagain part c hc
  cases hread with
  | lengthen | begin | skip => exact absurd rfl hagain
  | text hin =>
    cases hback : (r.takeChar g s ch).tree.toReread? (r.takeChar g s ch).active with
    | none =>
      rw [Run.readText, Run.giveBack_of_none hback] at hagain
      exact absurd rfl hagain
    | some reread =>
      rw [Run.readText, Run.giveBack_of_some hback] at hc
      obtain ⟨c₀, hc₀, hsame⟩ := Tree.Has.of_settle hc
      have hsame : c.inText = c₀.inText := by rcases hsame with rfl | rfl <;> rfl
      rw [hsame]
      by_contra hcin
      have hcin : c₀.inText = true := by simpa using hcin
      obtain ⟨hconforms, hopen⟩ := (Run.Passes.closed hr hin).tree_conforms
      obtain ⟨id, n, hn, e, he, hhas⟩ := hc₀
      have hl := hconforms.legal id n hn
      -- the open capture stands in the latest entry of the active instance
      have hid := hopen id n hn (Node.Has.inText ⟨e, he, hhas⟩ hl hcin)
      subst hid
      have hlast := hl.last?_of_inText he (hhas.inText (hl.fits e he) hcin)
      rw [Tree.toReread?, hn, Option.bind_some, hlast, Option.bind_some] at hback
      have hclosed := hhas.inText_of_toReread? (hl.fits e he) (by rw [hback]; rfl)
        fun a i j path other ha hi hj hne => h.spares ha hi hj hne
      rw [hcin] at hclosed
      cases hclosed

end PhraseTree
