import PhraseTree.Proofs.Run.Reporting
import PhraseTree.Proofs.Run.Spacing

/-!
# Characters that no phrase holds

`CharClasses.Excludes k ch` says that no declared set holds `ch`.  Outside texts such a character ends the phrase that is
being read and is passed over, with a report unless it is white space (`Run.step_excluded`).

`Grammar.unknown_advisory`: a character that is not white space and in no set does what a space does, but for one more
report.
-/

namespace PhraseTree

/-! ### Excluded characters -/

/-- None of the declared sets holds the character. -/
def CharClasses.Excludes (k : CharClasses) (ch : Char) : Prop := ∀ set ∈ k.declared, set.contains ch = false

instance (k : CharClasses) (ch : Char) : Decidable (k.Excludes ch) :=
  inferInstanceAs (Decidable (∀ set ∈ k.declared, set.contains ch = false))

namespace CharClasses.Excludes

variable {k : CharClasses} {ch : Char}

theorem startingKind (h : k.Excludes ch) : k.startingKind ch = none := by
  have hword : k.startsWord ch = false := h k.wordStart (by simp [declared])
  have hnumber : k.startsNumber ch = false := h k.numberStart (by simp [declared])
  have hvalid : k.valid.contains ch = false := h k.valid (by simp [declared])
  simp [CharClasses.startingKind, hword, hnumber, hvalid]

theorem continues (h : k.Excludes ch) (kind : PhraseKind) : k.continues kind ch = false := by
  have hword : k.wordContinue.contains ch = false := by
    refine h _ ?_
    cases hset : k.wordContinue? <;> simp [declared, wordContinue, hset]
  have hnumber : k.numberContinue.contains ch = false := by
    refine h _ ?_
    cases hset : k.numberContinue? <;> simp [declared, numberContinue, hset]
  have hstart : k.startsNumber ch = false := h k.numberStart (by simp [declared])
  have hvalid : k.valid.contains ch = false := h k.valid (by simp [declared])
  cases kind with
  | word => simp [CharClasses.continues, continuesWord, hword, hstart]
  | number => exact hnumber
  | chars => simp [CharClasses.continues, isOther, hvalid]

end CharClasses.Excludes

namespace Run

variable {g : Grammar} {s : Settings} {r a b : Run} {ch : Char} {u : List Char} {depth depth' : Nat}

theorem step_excluded (h : g.classes.Excludes ch) (hin : r.inText = false) (hflush : (r.flush g s).inText = false) :
    r.step g s ch = ((r.flush g s).skip ch, []) := by
  unfold step
  rw [hin]
  cases hbuffer : r.buffer? with
  | none =>
    have hsame : r.flush g s = r := by rw [flush, hbuffer]
    simp [openWith, h.startingKind, hsame]
  | some p => simp [h.continues p.kind, hflush, openWith, h.startingKind]

theorem cursor_flush : (r.flush g s).cursor = r.cursor := by
  unfold flush
  split
  · next p _ => exact (resolve_places g s r p true).cursor
  · rfl

/-- The second history lacks the report `d`. -/
def Lacks (d : Diagnostic) (earlier l l' : List Diagnostic) : Prop :=
  ∃ later, l = later ++ d :: earlier ∧ l' = later ++ earlier

theorem Lacks.admits (d : Diagnostic) (earlier : List Diagnostic) (s : Settings) (e : Diagnostic) :
    Admits (Lacks d earlier) s s e := by
  rintro l l' ⟨later, rfl, rfl⟩
  exact ⟨e.cut s :: later, rfl, rfl⟩

theorem skip_alike (hblank : Text.isBlank ch = false) :
    Alike (Lacks ⟨⟨r.cursor, ⟨r.cursor.line, countUp r.cursor.column⟩⟩, String.singleton ch, .unknownCharacter, []⟩
      r.reports) (r.skip ch) (r.skip ' ') := by
  have hline : ch ≠ '\n' := by
    rintro rfl
    revert hblank
    decide
  have hadvance : r.cursor.advance ch = ⟨r.cursor.line, countUp r.cursor.column⟩ := if_neg hline
  have hspace : r.skip ' ' = { r with cursor := ⟨r.cursor.line, countUp r.cursor.column⟩ } := rfl
  rw [hspace, skip, hblank, hadvance, past, hadvance]
  exact .mk ⟨[], rfl, rfl⟩

theorem Alike.finish {d : Diagnostic} {earlier : List Diagnostic} {text : List Char} {took : List Phrase}
    (h : Alike (Lacks d earlier) a b) (hr : Reached g s text a took []) :
    Alike (Lacks d earlier) (a.finish g s) (b.finish g s) := by
  have hflush := h.flush_end (fun e _ => Lacks.admits d earlier s e) hr
  unfold Run.finish
  dsimp only
  split
  · rw [reportEnd_eq, reportEnd_eq, hflush.ending?_eq]
    split
    · next e _ => exact hflush.report (Lacks.admits d earlier s e)
    · exact hflush
  · exact hflush

end Run

/-- A character that no phrase holds leaves the run alike, whatever follows, but for one more report. -/
theorem Grammar.read?_lacks {g : Grammar} {s : Settings} {u v : List Char} {ch : Char} {depth₀ : Nat} {r : Run}
    (hspace : g.classes.Excludes ' ') (hch : g.classes.Excludes ch) (hblank : Text.isBlank ch = false)
    (hread : Run.readAll g s depth₀ {} u = some r) (hin : r.inText = false) (hflush : (r.flush g s).inText = false) :
    Option.Rel (Run.Alike (Run.Lacks ⟨⟨r.cursor, ⟨r.cursor.line, countUp r.cursor.column⟩⟩, String.singleton ch,
      .unknownCharacter, []⟩ (r.flush g s).reports)) (g.read? s (u ++ ch :: v)) (g.read? s (u ++ ' ' :: v)) := by
  have hstart : Run.Reached g s (u ++ ch :: v) {} [] (u ++ ch :: v) := .start
  obtain ⟨taken, hreached⟩ := hstart.readAll hread
  have hskip := Run.skip_alike (r := r.flush g s) hblank
  rw [Run.cursor_flush] at hskip
  generalize (⟨⟨r.cursor, _⟩, String.singleton ch, .unknownCharacter, []⟩ : Diagnostic) = d at hskip ⊢
  have hpast : Run.Alike (Run.Lacks d (r.flush g s).reports) (r.step g s ch).1 (r.step g s ' ').1 := by
    rw [Run.step_excluded hch hin hflush, Run.step_excluded hspace hin hflush]
    exact hskip
  have hnone : ∀ {c : Char}, g.classes.Excludes c → (r.step g s c).2 = [] := by
    intro c hc
    rw [Run.step_excluded hc hin hflush]
  obtain ⟨taken', hreached'⟩ := hreached.step
  rw [hnone hch, List.nil_append] at hreached'
  -- both texts are read with the same bound on the nesting
  have hlength : allowance (u ++ ' ' :: v).length = allowance (u ++ ch :: v).length := by simp
  unfold Grammar.read?
  rw [hlength, Run.readAll_append, Run.readAll_append]
  cases hu : Run.readAll g s (allowance (u ++ ch :: v).length) {} u with
  | none => exact .none
  | some r' =>
    cases Run.readAll_inj hu hread
    rw [Option.bind_some, Option.bind_some, Run.readAll_cons, Run.readAll_cons]
    have hone : ∀ {c : Char}, g.classes.Excludes c →
        Run.readChar g s (allowance (u ++ ch :: v).length) r c = some (r.step g s c).1 := by
      intro c hc
      rw [allowance, Run.readChar_succ, hnone hc]
      rfl
    rw [hone hch, hone hspace, Option.bind_some, Option.bind_some]
    have hrest : ∃ took, Run.Reached g s (u ++ ch :: v) (r.step g s ch).1 took (v ++ []) :=
      ⟨taken', by rw [List.append_nil]; exact hreached'⟩
    have hall := hpast.readAll (fun e _ => Run.Lacks.admits d _ s e) (allowance (u ++ ch :: v).length) hrest
    exact rel_map hall fun a b ⟨halike, took, htook⟩ => halike.finish htook

/-- **Unknown characters are advisory only.**  Let a run over `u` come to a state `r` in which no text is open, nor is one
after the phrase being read, if any, was placed.  There a character that is in none of the sets and is no white space has
the effect of a space that is in none of the sets, but for one more report: with `v` after it, either both texts come to
their end or neither does, and the results are the same, spans and all, except that the first has one more report, which
is counted.  It stands after those of `u` and of the phrase that the character ends, and is about the column that the
character takes. -/
theorem Grammar.unknown_advisory {g : Grammar} {s : Settings} {u v : List Char} {ch : Char} {depth₀ : Nat} {r : Run}
    (hspace : g.classes.Excludes ' ') (hch : g.classes.Excludes ch) (hblank : Text.isBlank ch = false)
    (hread : Run.readAll g s depth₀ {} u = some r) (hin : r.inText = false) (hflush : (r.flush g s).inText = false) :
    Option.Rel (fun a b => ∃ later,
        b.reports = later ++ (r.flush g s).reports ∧
        a = { b with
          reports := later ++ ⟨⟨r.cursor, ⟨r.cursor.line, countUp r.cursor.column⟩⟩, String.singleton ch,
            .unknownCharacter, []⟩ :: (r.flush g s).reports
          counters := { b.counters with reported := b.counters.reported + 1 } })
      (g.read? s (u ++ ch :: v)) (g.read? s (u ++ ' ' :: v)) := by
  have hrel := Grammar.read?_lacks (v := v) hspace hch hblank hread hin hflush
  generalize ha : g.read? s (u ++ ch :: v) = a?, hb : g.read? s (u ++ ' ' :: v) = b? at hrel ⊢
  cases hrel with
  | none => exact .none
  | @some a b h =>
    have hcounts := (Grammar.read?_passes ha).counts
    have hcounts' := (Grammar.read?_passes hb).counts
    cases h with
    | @mk reports reported h =>
      obtain ⟨later, hlater, rfl⟩ := h
      have hreported : a.counters.reported = reported + 1 := by
        have hlength : reported = (later ++ (r.flush g s).reports).length := hcounts'
        rw [hcounts, hlater, hlength]
        simp only [List.length_append, List.length_cons]
        omega
      refine .some ⟨later, rfl, ?_⟩
      rw [← hlater]
      show a = { a with counters := { a.counters with reported := reported + 1 } }
      rw [← hreported]

namespace Listing

/-- A letter that is in none of the sets ends the name of an item, as a space does. -/
theorem noted_listing : ∃ r a b, Run.readAll (grammar true) {} 1 {} ['a'] = some r ∧ r.inText = false ∧
    (r.flush (grammar true) {}).inText = false ∧ (grammar true).read? {} (['a'] ++ 'é' :: ['1']) = some a ∧
      (grammar true).read? {} (['a'] ++ ' ' :: ['1']) = some b ∧ ∃ later,
        b.reports = later ++ (r.flush (grammar true) {}).reports ∧
        a = { b with
          reports := later ++ ⟨⟨r.cursor, ⟨r.cursor.line, countUp r.cursor.column⟩⟩, String.singleton 'é',
            .unknownCharacter, []⟩ :: (r.flush (grammar true) {}).reports
          counters := { b.counters with reported := b.counters.reported + 1 } } := by
  have hstops : ∃ r, Run.readAll (grammar true) {} 1 {} ['a'] = some r ∧ r.inText = false ∧
      (r.flush (grammar true) {}).inText = false := by
    have hsome : (Run.readAll (grammar true) {} 1 {} ['a']).any
        (fun r => !r.inText && !(r.flush (grammar true) {}).inText) = true := by decide +kernel
    cases hread : Run.readAll (grammar true) {} 1 {} ['a'] with
    | none => simp [hread] at hsome
    | some r => exact ⟨r, rfl, by simpa [hread] using hsome⟩
  obtain ⟨r, hread, hin, hflush⟩ := hstops
  have hends : ((grammar true).read? {} (['a'] ++ 'é' :: ['1'])).isSome = true := by decide +kernel
  obtain ⟨a, ha⟩ := Option.isSome_iff_exists.mp hends
  have hletter : (grammar true).classes.Excludes 'é' := by decide
  have hboth := Grammar.unknown_advisory (v := ['1']) (by decide) hletter (by decide) hread hin hflush
  rw [ha] at hboth
  generalize hb : (grammar true).read? {} (['a'] ++ ' ' :: ['1']) = found at hboth
  cases hboth with
  | some hab => exact ⟨r, a, _, hread, hin, hflush, ha, rfl, hab⟩

end Listing

end PhraseTree
