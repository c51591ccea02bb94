import PhraseTree.Proofs.Text.Quotation
import Mathlib.Data.List.DropRight

/-!
# Where a text leads

A cursor that reads a text counts lines, and the characters of the latest one.  Both counts stay at the largest word, and
reading on never takes them back from there, so they may as well be counted without bound and capped at the end
(`Cursor.line_advanceOver`, `Cursor.column_advanceOver`).

Lines decide first, so a text leads forward as long as its line feeds are counted.  On the last line that can be counted
a line feed leads back to the first column of that same line: `Cursor.FallsBack` says when the text does not make up for
it, and `Cursor.le_advanceOver_iff` that this is the only way back.
-/

namespace PhraseTree

/-- The characters behind the last line feed. -/
def lastLine (text : List Char) : List Char := text.rtakeWhile (· ≠ '\n')

theorem lastLine_append_feed (text : List Char) : lastLine (text ++ ['\n']) = [] :=
  List.rtakeWhile_concat_neg _ _ _ (by simp)

theorem lastLine_append {ch : Char} (h : ch ≠ '\n') (text : List Char) :
    lastLine (text ++ [ch]) = lastLine text ++ [ch] :=
  List.rtakeWhile_concat_pos _ _ _ (by simpa using h)

namespace Cursor

/-! ### What is counted -/

theorem line_advanceOver (c : Cursor) (text : List Char) :
    (c.advanceOver text).line.toNat = min (c.line.toNat + text.count '\n') 4294967295 := by
  induction text using List.reverseRecOn with
  | nil =>
    have hlt := c.line.toNat_lt
    simp only [advanceOver_nil, List.count_nil]
    omega
  | append_singleton text ch ih =>
    rw [advanceOver_append, advanceOver_cons, advanceOver_nil, advance, List.count_append]
    split
    · next h =>
      subst h
      rw [toNat_countUp, ih, List.count_singleton_self]
      omega
    · next h => rw [ih, List.count_singleton, if_neg (by simpa using h), Nat.add_zero]

/-- A line feed starts the column anew. -/
theorem column_advanceOver (c : Cursor) (text : List Char) :
    (c.advanceOver text).column.toNat =
      min (if '\n' ∈ text then (lastLine text).length + 1 else c.column.toNat + text.length) 4294967295 := by
  induction text using List.reverseRecOn with
  | nil =>
    have hlt := c.column.toNat_lt
    simp only [advanceOver_nil, List.not_mem_nil, if_false, List.length_nil]
    omega
  | append_singleton text ch ih =>
    rw [advanceOver_append, advanceOver_cons, advanceOver_nil, advance]
    split
    · next h =>
      subst h
      rw [if_pos (by simp), lastLine_append_feed]
      rfl
    · next h =>
      have hmem : '\n' ∈ text ++ [ch] ↔ '\n' ∈ text := by simp [Ne.symm h]
      rw [toNat_countUp, ih, lastLine_append h]
      simp only [hmem, List.length_append, List.length_singleton]
      split <;> omega

/-! ### The way back -/

/-- **A text falls back**: read from a cursor on the last line that can be counted, it holds a line feed, and behind its
last line feed too few characters to reach the column of the cursor again. -/
def FallsBack (c : Cursor) (text : List Char) : Prop :=
  c.line = 4294967295 ∧ '\n' ∈ text ∧ (lastLine text).length + 1 < c.column.toNat

instance (c : Cursor) (text : List Char) : Decidable (c.FallsBack text) := by unfold FallsBack; infer_instance

/-- **A text leads forward unless it falls back.** -/
theorem le_advanceOver_iff (c : Cursor) (text : List Char) : c ≤ c.advanceOver text ↔ ¬ c.FallsBack text := by
  have hline := c.line_advanceOver text
  have hcolumn := c.column_advanceOver text
  have hl := c.line.toNat_lt
  have hc := c.column.toNat_lt
  rw [le_def, UInt32.lt_iff_toNat_lt, UInt32.le_iff_toNat_le, ← UInt32.toNat_inj, hline, hcolumn, FallsBack,
    ← UInt32.toNat_inj]
  -- A line feed leads to a later line, if there is one to be counted; columns decide only on the last line.
  by_cases hfeed : '\n' ∈ text
  · have hcount : 0 < text.count '\n' := List.count_pos_iff.mpr hfeed
    have hlast : (4294967295 : UInt32).toNat = 4294967295 := rfl
    simp only [hfeed, if_true, true_and, hlast]
    omega
  · have hcount : text.count '\n' = 0 := List.count_eq_zero.mpr hfeed
    simp only [hfeed, if_false, false_and, and_false, not_false_eq_true, iff_true, hcount]
    omega

theorem min_eq_left_iff {c d : Cursor} : min c d = c ↔ c ≤ d := by
  have hself : c ≤ c := (le_def c c).mpr (Or.inr ⟨rfl, UInt32.le_refl _⟩)
  constructor
  · intro h
    by_contra hle
    have hright : min c d = d := if_neg hle
    rw [← h.symm.trans hright] at hle
    exact hle hself
  · exact fun h => if_pos h

end Cursor

/-! ### Spans of a text -/

/-- Whether a span does not end before it starts. -/
def Span.Forward (s : Span) : Prop := s.start ≤ s.stop

instance (s : Span) : Decidable s.Forward := inferInstanceAs (Decidable (s.start ≤ s.stop))

/-- **Where a text leads.**  The cursor is not taken back, and the span of the text is forward and lies behind every
earlier span from there, unless the text falls back; so it is for a text that is read on behind another one. -/
theorem Cursor.advanceOver_forward_iff (c : Cursor) (s t : List Char) (stop stop' : Cursor) :
    (c ≤ c.advanceOver s ↔ ¬ c.FallsBack s) ∧
      ((Span.mk c (c.advanceOver s)).Forward ↔ ¬ c.FallsBack s) ∧
      ((Span.mk c stop).hull ⟨c, c.advanceOver s⟩).start = c ∧
      (((Span.mk c stop).hull ⟨c.advanceOver s, stop'⟩).start = c ↔ ¬ c.FallsBack s) ∧
      (c.advanceOver s ≤ c.advanceOver (s ++ t) ↔ ¬ (c.advanceOver s).FallsBack t) := by
  have hforward := c.le_advanceOver_iff s
  refine ⟨hforward, hforward, ite_self c, ?_, ?_⟩
  · exact min_eq_left_iff.trans hforward
  · rw [advanceOver_append]
    exact le_advanceOver_iff _ t

/-- **A line feed on the last line** leads from its fourth column back to the first one. -/
theorem LastLine.falls_back :
    ¬ (⟨4294967295, 4⟩ : Cursor) ≤ (⟨4294967295, 4⟩ : Cursor).advanceOver ['\n'] ∧
      ¬ (Span.mk ⟨4294967295, 4⟩ ((⟨4294967295, 4⟩ : Cursor).advanceOver ['\n'])).Forward := by
  decide

end PhraseTree
