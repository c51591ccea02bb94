import PhraseTree.Phrase
import Mathlib.Data.List.Basic
import Mathlib.Order.Monotone.Basic

/-!
# Stretches of a text

The characters of a text are numbered from zero, and `cursorAt base text i` is the place before character `i` of a text
that is read from `base` on.

* `Quotes base text span content a b`: the span and the content are those of the characters from `a` up to `b`;
* `Span.cut span text`: the characters whose places lie in the span, where the text is read from the first place on.

As long as no count stops at its largest value, later characters stand at later places (`rank_cursorAt_lt`), so a
quotation is what its span cuts out of the text (`Quotes.eq_cut`).
-/

namespace PhraseTree

/-- The place before character `i`. -/
def cursorAt (base : Cursor) (text : List Char) (i : Nat) : Cursor := base.advanceOver (text.take i)

/-- The characters from `a` up to `b`. -/
def slice (text : List Char) (a b : Nat) : List Char := (text.take b).drop a

/-- Whether the character at `c` lies in the span. -/
def Span.holds (s : Span) (c : Cursor) : Bool := decide (s.start ≤ c ∧ ¬ s.stop ≤ c)

/-- The characters of the text that lie in the span. -/
def Span.cut (s : Span) (text : List Char) : List Char :=
  (text.zipIdx.filter fun x => s.holds (cursorAt .start text x.2)).map Prod.fst

/-- **A quotation**: span and content are those of the characters from `a` up to `b`. -/
structure Quotes (base : Cursor) (text : List Char) (span : Span) (content : List Char) (a b : Nat) : Prop where
  le : a ≤ b
  le_length : b ≤ text.length
  span_eq : span = ⟨cursorAt base text a, cursorAt base text b⟩
  content_eq : content = slice text a b

/-- What a cursor counts, as one number. -/
def Cursor.rank (c : Cursor) : Nat := c.line.toNat * 4294967296 + c.column.toNat

variable {base : Cursor} {text content more : List Char} {span : Span} {a b c i j : Nat} {ch : Char}

/-! ### Slices -/

theorem length_slice (hb : b ≤ text.length) : (slice text a b).length = b - a := by
  simp [slice, Nat.min_eq_left hb]

theorem slice_self : slice text a a = [] := by simp [slice]

theorem slice_append (text : List Char) (hab : a ≤ b) (hbc : b ≤ c) :
    slice text a b ++ slice text b c = slice text a c := by
  have hb : text.take b = (text.take c).take b := by rw [List.take_take, Nat.min_eq_left hbc]
  have ha : (text.take c).drop a = ((text.take c).drop a).take (b - a) ++ ((text.take c).drop a).drop (b - a) :=
    (List.take_append_drop _ _).symm
  rw [List.drop_drop, Nat.add_sub_cancel' hab] at ha
  rw [slice, slice, slice, ha, hb, List.drop_take]

theorem slice_one (h : text[i]? = some ch) : slice text i (i + 1) = [ch] := by
  rw [slice, List.take_add_one, h, List.drop_append, List.length_take]
  have hi : i < text.length := (List.getElem?_eq_some_iff.mp h).1
  simp [Nat.min_eq_left hi.le]

theorem slice_append_drop (h : b ≤ c) : slice text b c ++ text.drop c = text.drop b := by
  have hd : (text.take c ++ text.drop c).drop b = text.drop b := by rw [List.take_append_drop]
  rw [← hd, slice, List.drop_append, List.length_take]
  rcases Nat.le_total c text.length with hc | hc
  · simp [Nat.min_eq_left hc, Nat.sub_eq_zero_of_le h]
  · simp [List.drop_eq_nil_of_le hc]

theorem of_cons_eq_drop {rest : List Char} (h : ch :: rest = text.drop i) :
    text[i]? = some ch ∧ rest = text.drop (i + 1) := by
  constructor
  · rw [← List.head?_drop, ← h]
    rfl
  · rw [← List.tail_drop, ← h]
    rfl

/-! ### Places -/

@[simp] theorem cursorAt_zero : cursorAt base text 0 = base := rfl

theorem cursorAt_length : cursorAt base text text.length = base.advanceOver text := by
  rw [cursorAt, List.take_length]

theorem cursorAt_advanceOver (h : a ≤ b) :
    (cursorAt base text a).advanceOver (slice text a b) = cursorAt base text b := by
  have ha : text.take a = (text.take b).take a := by rw [List.take_take, Nat.min_eq_left h]
  rw [cursorAt, cursorAt, slice, ← Cursor.advanceOver_append, ha, List.take_append_drop]

theorem cursorAt_advance (h : text[i]? = some ch) : (cursorAt base text i).advance ch = cursorAt base text (i + 1) := by
  rw [← cursorAt_advanceOver (Nat.le_succ i), slice_one h]
  rfl

/-! ### The order of places -/

theorem Cursor.le_iff_rank (c d : Cursor) : c ≤ d ↔ c.rank ≤ d.rank := by
  have hc := c.column.toNat_lt
  have hd := d.column.toNat_lt
  rw [le_def, UInt32.lt_iff_toNat_lt, UInt32.le_iff_toNat_le, ← UInt32.toNat_inj, rank, rank]
  omega

theorem toNat_countUp (n : UInt32) : (countUp n).toNat = min (n.toNat + 1) 4294967295 := by
  have hlt := n.toNat_lt
  unfold countUp
  split
  · next h => subst h; simp
  · next h =>
    have hne : n.toNat ≠ 4294967295 := fun he => h (UInt32.toNat_inj.mp he)
    rw [UInt32.toNat_add, UInt32.toNat_one]
    omega

theorem Cursor.advance_counts (c : Cursor) (ch : Char) :
    (c.advance ch).line.toNat ≤ c.line.toNat + 1 ∧ (c.advance ch).column.toNat ≤ c.column.toNat + 1 := by
  have hline := toNat_countUp c.line
  have hcolumn := toNat_countUp c.column
  unfold advance
  split
  · exact ⟨by simp only [hline]; omega, by simp⟩
  · exact ⟨by simp, by simp only [hcolumn]; omega⟩

/-- A cursor whose counts have not reached the largest value moves on. -/
theorem Cursor.rank_advance {c : Cursor} (hline : c.line.toNat < 4294967295) (hcolumn : c.column.toNat < 4294967295)
    (ch : Char) : c.rank < (c.advance ch).rank := by
  have hl := toNat_countUp c.line
  have hc := toNat_countUp c.column
  unfold advance rank
  split
  · simp only [hl, UInt32.toNat_one]
    omega
  · simp only [hc]
    omega

theorem cursorAt_counts (text : List Char) (i : Nat) :
    (cursorAt .start text i).line.toNat ≤ i + 1 ∧ (cursorAt .start text i).column.toNat ≤ i + 1 := by
  induction i with
  | zero => simp [Cursor.start]
  | succ i ih =>
    cases h : text[i]? with
    | none =>
      have hi : text.length ≤ i := List.getElem?_eq_none_iff.mp h
      have heq : cursorAt .start text (i + 1) = cursorAt .start text i := by
        rw [cursorAt, cursorAt, List.take_of_length_le hi, List.take_of_length_le (by omega)]
      rw [heq]
      omega
    | some ch =>
      rw [← cursorAt_advance h]
      have := (cursorAt .start text i).advance_counts ch
      omega

/-- Later characters stand at later places. -/
theorem rank_cursorAt_lt (hlen : text.length < 4294967295) (hij : i < j) (hj : j ≤ text.length) :
    (cursorAt .start text i).rank < (cursorAt .start text j).rank := by
  induction j with
  | zero => omega
  | succ j ih =>
    have hstep : (cursorAt .start text j).rank < (cursorAt .start text (j + 1)).rank := by
      have hget : text[j]? = some text[j] := List.getElem?_eq_getElem (by omega)
      rw [← cursorAt_advance hget]
      have := cursorAt_counts text j
      exact Cursor.rank_advance (by omega) (by omega) _
    rcases Nat.lt_or_eq_of_le (Nat.le_of_lt_succ hij) with h | rfl
    · exact (ih h (by omega)).trans hstep
    · exact hstep

theorem cursorAt_le_iff (hlen : text.length < 4294967295) (hi : i ≤ text.length) (hj : j ≤ text.length) :
    cursorAt .start text i ≤ cursorAt .start text j ↔ i ≤ j := by
  rw [Cursor.le_iff_rank]
  rcases Nat.lt_trichotomy i j with h | rfl | h
  · have := rank_cursorAt_lt hlen h hj
    omega
  · simp
  · have := rank_cursorAt_lt hlen h hi
    omega

theorem cursorAt_inj (hlen : text.length < 4294967295) (hi : i ≤ text.length) (hj : j ≤ text.length)
    (h : cursorAt .start text i = cursorAt .start text j) : i = j := by
  rcases Nat.lt_trichotomy i j with hlt | rfl | hlt
  · have := rank_cursorAt_lt hlen hlt hj
    rw [h] at this
    omega
  · rfl
  · have := rank_cursorAt_lt hlen hlt hi
    rw [h] at this
    omega

/-! ### Quotations -/

namespace Quotes

theorem empty (h : a ≤ text.length) : Quotes base text (.emptyAt (cursorAt base text a)) [] a a :=
  ⟨le_rfl, h, rfl, slice_self.symm⟩

theorem single (h : text[i]? = some ch) :
    Quotes base text ⟨cursorAt base text i, (cursorAt base text i).advance ch⟩ [ch] i (i + 1) :=
  ⟨Nat.le_succ i, (List.getElem?_eq_some_iff.mp h).1, by rw [cursorAt_advance h], (slice_one h).symm⟩

/-- A phrase of a single character. -/
theorem phrase (h : text[i]? = some ch) (kind : PhraseKind) :
    Quotes base text (Phrase.single kind (cursorAt base text i) ch).span
      (Phrase.single kind (cursorAt base text i) ch).text.toList i (i + 1) := by
  simpa [Phrase.single] using single h

theorem append {span' : Span} (h : Quotes base text span content a b) (h' : Quotes base text span' more b c) :
    Quotes base text ⟨span.start, span'.stop⟩ (content ++ more) a c where
  le := h.le.trans h'.le
  le_length := h'.le_length
  span_eq := by rw [h.span_eq, h'.span_eq]
  content_eq := by rw [h.content_eq, h'.content_eq, slice_append text h.le h'.le]

theorem length_eq (h : Quotes base text span content a b) : content.length = b - a := by
  rw [h.content_eq, length_slice h.le_length]

/-- The first `n` characters of a quotation. -/
theorem take {n : Nat} (h : Quotes base text span content a b) (hn : n ≤ b - a) :
    Quotes base text ⟨span.start, span.start.advanceOver (content.take n)⟩ (content.take n) a (a + n) := by
  have hle := h.le
  have hlen := h.le_length
  have htake : content.take n = slice text a (a + n) := by
    have happ : slice text a b = slice text a (a + n) ++ slice text (a + n) b :=
      (slice_append text (by omega) (by omega)).symm
    rw [h.content_eq, happ]
    refine List.take_left' ?_
    rw [length_slice (by omega)]
    omega
  refine ⟨by omega, by omega, ?_, htake⟩
  rw [htake, h.span_eq, cursorAt_advanceOver (by omega)]

theorem suffix_eq (h : Quotes base text span content a b) (hmore : more <:+ content) :
    more = slice text (b - more.length) b := by
  have hlen := h.length_eq
  have hle := hmore.length_le
  have hab := h.le
  have happ := slice_append text (a := a) (b := b - more.length) (c := b) (by omega) (by omega)
  have hdrop : content.drop (content.length - more.length) = slice text (b - more.length) b := by
    rw [h.content_eq, ← happ]
    refine List.drop_left' ?_
    rw [happ, length_slice h.le_length, length_slice (by have := h.le_length; omega)]
    omega
  rw [← hdrop]
  exact List.suffix_iff_eq_drop.mp hmore

theorem holds_iff (hlen : text.length < 4294967295) (h : Quotes .start text span content a b) (hi : i < text.length) :
    span.holds (cursorAt .start text i) = true ↔ a ≤ i ∧ i < b := by
  have hab := h.le
  have hb := h.le_length
  rw [h.span_eq, Span.holds, decide_eq_true_iff, cursorAt_le_iff hlen (by omega) hi.le,
    cursorAt_le_iff hlen hb hi.le, Nat.not_le]

/-- **A quotation is what its span cuts out of the text.** -/
theorem eq_cut (hlen : text.length < 4294967295) (h : Quotes .start text span content a b) : content = span.cut text := by
  have hfilter : text.zipIdx.filter (fun x => span.holds (cursorAt .start text x.2)) =
      text.zipIdx.filter fun x => decide (a ≤ x.2 ∧ x.2 < b) := by
    refine List.filter_congr fun x hmem => ?_
    have hlt := (List.mem_zipIdx hmem).2.1
    rw [Bool.eq_iff_iff, h.holds_iff hlen (by omega), decide_eq_true_iff]
  have hab := h.le
  have hb := h.le_length
  have hsplit : text = text.take a ++ (slice text a b ++ text.drop b) := by
    rw [slice_append_drop hab, List.take_append_drop]
  have hcut : text.zipIdx.filter (fun x => decide (a ≤ x.2 ∧ x.2 < b)) = (slice text a b).zipIdx a := by
    have hta : (text.take a).length = a := by simp; omega
    have hsl := length_slice (a := a) hb
    rw [hsplit, List.zipIdx_append, List.zipIdx_append, hta, hsl, ← hsplit]
    have h1 : ((text.take a).zipIdx 0).filter (fun x => decide (a ≤ x.2 ∧ x.2 < b)) = [] := by
      refine List.filter_eq_nil_iff.mpr fun x hmem => ?_
      have := (List.mem_zipIdx hmem).2.1
      simp only [decide_eq_true_iff]
      omega
    have h2 : ((slice text a b).zipIdx (0 + a)).filter (fun x => decide (a ≤ x.2 ∧ x.2 < b)) =
        (slice text a b).zipIdx (0 + a) := by
      refine List.filter_eq_self.mpr fun x hmem => ?_
      have h3 := (List.mem_zipIdx hmem).1
      have h4 := (List.mem_zipIdx hmem).2.1
      simp only [decide_eq_true_iff]
      omega
    have h3 : ((text.drop b).zipIdx (0 + a + (b - a))).filter (fun x => decide (a ≤ x.2 ∧ x.2 < b)) = [] := by
      refine List.filter_eq_nil_iff.mpr fun x hmem => ?_
      have := (List.mem_zipIdx hmem).1
      simp only [decide_eq_true_iff]
      omega
    rw [List.filter_append, List.filter_append, h1, h2, h3, List.nil_append, List.append_nil, Nat.zero_add]
  rw [Span.cut, hfilter, hcut, h.content_eq, List.zipIdx_map_fst]

end Quotes

/-- A span cuts out at most as many characters as it counts, be its places in order or not. -/
theorem length_cut_le (hlen : text.length < 4294967295) (ha : a ≤ text.length) (hb : b ≤ text.length) :
    (Span.cut ⟨cursorAt .start text a, cursorAt .start text b⟩ text).length ≤ b - a := by
  rcases Nat.le_total a b with hab | hba
  · have hquotes : Quotes .start text ⟨cursorAt .start text a, cursorAt .start text b⟩ (slice text a b) a b :=
      ⟨hab, hb, rfl, rfl⟩
    rw [← hquotes.eq_cut hlen, length_slice hb]
  · have hnone : text.zipIdx.filter (fun x =>
        Span.holds ⟨cursorAt .start text a, cursorAt .start text b⟩ (cursorAt .start text x.2)) = [] := by
      refine List.filter_eq_nil_iff.mpr fun x hmem => ?_
      have hlt := (List.mem_zipIdx hmem).2.1
      rw [Span.holds, decide_eq_true_iff, cursorAt_le_iff hlen ha (by omega), cursorAt_le_iff hlen hb (by omega)]
      omega
    rw [Span.cut, hnone]
    simp

end PhraseTree
