import PhraseTree.Proofs.Capture.Tracking
import Mathlib.Order.Bounds.Basic

/-!
# Texts that an instance has by itself

A text part that stands among the parts of a rule, and not along a path of alternatives, is captured by the instance
itself.  All that such a capture holds follows from three places: where its opening phrase begins, where this ends, and
how far the text was read.

* `Capture.ofText text i a o b isOpen` — the capture of a text that was opened by the characters from `a` up to `o` and
  holds those up to `b`;
* `TextPart.ends x text o` — where a closing phrase ends that begins at `o` or later; `TextPart.stop x e` — where the
  text then stops;
* `TextPart.resume?_ofText`, `TextPart.resume?_ofText_end`: what becomes of the capture where one more character is read;
* `Tree.HasText g t id x c` — the instance `id` has the capture `c` of its text part `x`; `Tree.LastText` — it is its
  latest entry;
* `Tree.Takes.text_arises`: where such captures come from.
-/

namespace PhraseTree

/-! ### The capture of a text -/

/-- **A text that was opened by the characters from `a` up to `o`** and holds those up to `b`. -/
def Capture.ofText (text : List Char) (i a o b : Nat) (isOpen : Bool) : Capture where
  part := i
  values := [String.ofList (slice text a b)]
  span := ⟨cursorAt .start text a, cursorAt .start text b⟩
  finished := !isOpen
  inText := isOpen
  opening := o - a

namespace TextPart

/-- The places where a closing phrase ends that begins at place `o` or later.  An empty one is never found. -/
def ends (x : TextPart) (text : List Char) (o : Nat) : Set Nat :=
  { e | x.closing ≠ "" ∧ o ≤ e ∧ e ≤ text.length ∧ x.closing.toList <:+ slice text o e }

instance (x : TextPart) (text : List Char) (o : Nat) : DecidablePred (· ∈ x.ends text o) := fun e =>
  inferInstanceAs (Decidable (x.closing ≠ "" ∧ o ≤ e ∧ e ≤ text.length ∧ x.closing.toList <:+ slice text o e))

/-- Where a text stops whose closing phrase ends at place `e`. -/
def stop (x : TextPart) (e : Nat) : Nat := if x.handsBack then e - x.closing.length else e

variable {x : TextPart} {text : List Char} {i a o q e : Nat} {ch : Char} {p : Phrase} {c : Capture}

theorem length_closing_le (h : e ∈ x.ends text o) : o + x.closing.length ≤ e := by
  obtain ⟨-, hoe, he, hsuffix⟩ := h
  have hle := hsuffix.length_le
  rw [length_slice he, String.length_toList] at hle
  omega

theorem lt_of_mem_ends (h : e ∈ x.ends text o) : o < e := by
  have hpos : 0 < x.closing.toList.length := by
    rw [List.length_pos_iff, ne_eq, String.toList_eq_nil_iff]
    exact h.1
  have hle := length_closing_le h
  rw [String.length_toList] at hpos
  omega

/-- A text that hands its closing phrase back stops where this begins. -/
theorem closing_append_drop (h : e ∈ x.ends text o) (hgives : x.handsBack = true) :
    x.closing.toList ++ text.drop e = text.drop (x.stop e) := by
  obtain ⟨-, hoe, he, hsuffix⟩ := h
  have hquotes : Quotes .start text ⟨cursorAt .start text o, cursorAt .start text e⟩ (slice text o e) o e :=
    ⟨hoe, he, rfl, rfl⟩
  rw [hquotes.suffix_eq hsuffix, String.length_toList, stop, if_pos hgives]
  exact slice_append_drop (Nat.sub_le _ _)

/-- A text is closed where a closing phrase ends behind the opening phrase. -/
theorem closes_slice_iff (hao : a ≤ o) (hoe : o ≤ e) (he : e ≤ text.length) :
    x.closes (o - a) (String.ofList (slice text a e)) = true ↔ e ∈ x.ends text o := by
  have hlength : (String.ofList (slice text a e)).length = e - a := by
    rw [← String.length_toList, String.toList_ofList, length_slice he]
  have happend := slice_append text hao hoe
  rw [closes_iff, String.toList_ofList, hlength]
  refine and_congr_right fun _ => ⟨fun ⟨hlong, hsuffix⟩ => ⟨hoe, he, ?_⟩, fun ⟨_, _, hsuffix⟩ => ⟨?_, ?_⟩⟩
  · refine List.suffix_of_suffix_length_le hsuffix (by rw [← happend]; exact List.suffix_append _ _) ?_
    rw [length_slice he, String.length_toList]
    omega
  · have hle := hsuffix.length_le
    rw [length_slice he, String.length_toList] at hle
    omega
  · rw [← happend]
    exact hsuffix.trans (List.suffix_append _ _)

theorem begin?_ofText (h : x.begin? i p = some c) (hp : Quotes .start text p.span p.text.toList a o) :
    x.opens (String.ofList (slice text a o)) = true ∧ c = .ofText text i a o o true := by
  have htext : String.ofList (slice text a o) = p.text := by rw [← hp.content_eq, String.ofList_toList]
  unfold begin? at h
  split at h
  · next hopens =>
    cases h
    refine ⟨by rwa [htext], ?_⟩
    simp only [Capture.ofText, Capture.ofPhrase, htext, hp.span_eq, hp.length_eq, Bool.not_true]
  · cases h

section Resume

variable (hao : a ≤ o) (hoq : o ≤ q) (hch : text[q]? = some ch)

include hch

theorem value_ofText_append (haq : a ≤ q) :
    (Capture.ofText text i a o q true).value ++ (Phrase.single .chars (cursorAt .start text q) ch).text =
      String.ofList (slice text a (q + 1)) := by
  rw [String.ext_iff, String.toList_append, Capture.value, Capture.ofText, Phrase.single, List.headD_cons,
    String.toList_ofList, String.toList_ofList, ← slice_append text haq (Nat.le_succ q), slice_one hch,
    String.toList_singleton]

include hao hoq

/-- **A character goes into an open text**, and no closing phrase ends with it. -/
theorem resume?_ofText (hopen : q + 1 ∉ x.ends text o) :
    x.resume? (.single .chars (cursorAt .start text q) ch) (.ofText text i a o q true) =
      some (.ofText text i a o (q + 1) true) := by
  have hin : (Capture.ofText text i a o q true).inText = true := rfl
  have hq : q + 1 ≤ text.length := (List.getElem?_eq_some_iff.mp hch).1
  have hcloses : ¬ x.closes (Capture.ofText text i a o q true).opening (String.ofList (slice text a (q + 1))) = true :=
    mt (closes_slice_iff hao (Nat.le_succ_of_le hoq) hq).mp hopen
  rw [resume?, if_pos hin]
  dsimp only
  rw [value_ofText_append hch (hao.trans hoq), if_neg hcloses]
  simp only [Capture.upTo, Capture.ofText, Phrase.single, cursorAt_advance hch]

/-- **A character closes a text**: a closing phrase ends with it. -/
theorem resume?_ofText_end (hend : q + 1 ∈ x.ends text o) :
    x.resume? (.single .chars (cursorAt .start text q) ch) (.ofText text i a o q true) =
      some { Capture.ofText text i a o (x.stop (q + 1)) false with
        handBack? := if x.handsBack then some x.closing else none } := by
  have hin : (Capture.ofText text i a o q true).inText = true := rfl
  have hq : q + 1 ≤ text.length := (List.getElem?_eq_some_iff.mp hch).1
  have hcloses : x.closes (Capture.ofText text i a o q true).opening (String.ofList (slice text a (q + 1))) = true :=
    (closes_slice_iff hao (Nat.le_succ_of_le hoq) hq).mpr hend
  rw [resume?, if_pos hin]
  dsimp only
  rw [value_ofText_append hch (hao.trans hoq), if_pos hcloses]
  by_cases hgives : x.handsBack = true
  · -- what is left stops where the closing phrase begins
    have hstop : x.stop (q + 1) = a + (q + 1 - a - x.closing.length) := by
      have hle := length_closing_le hend
      rw [stop, if_pos hgives]
      omega
    have hwhole : Quotes .start text ⟨cursorAt .start text a, cursorAt .start text (q + 1)⟩ (slice text a (q + 1)) a
        (q + 1) := ⟨by omega, hq, rfl, rfl⟩
    have hkept := hwhole.take (n := q + 1 - a - x.closing.length) (Nat.sub_le _ _)
    have hkeep : x.keep (String.ofList (slice text a (q + 1))) = slice text a (x.stop (q + 1)) := by
      rw [keep, String.toList_ofList, ← String.length_toList, String.toList_ofList, length_slice hq, hkept.content_eq,
        hstop]
    have hspan : (cursorAt .start text a).advanceOver (slice text a (x.stop (q + 1))) =
        cursorAt .start text (x.stop (q + 1)) := cursorAt_advanceOver (by omega)
    rw [if_pos hgives, if_pos hgives, hkeep]
    simp only [Capture.ofText, hspan, Bool.not_false]
  · have hstop : x.stop (q + 1) = q + 1 := by rw [stop, if_neg hgives]
    rw [if_neg hgives, if_neg hgives, hstop]
    simp only [Capture.upTo, Capture.ofText, Phrase.single, cursorAt_advance hch, Bool.not_false]

end Resume

end TextPart

/-! ### Texts of a tree -/

theorem Node.Legal.closed_of_mem {g : Grammar} {n : Node} {e : Entry} (h : n.Legal g) (he : e ∈ n.entries)
    (hclosed : n.inText = false) : e.inText = false := by
  by_contra hin
  have hin : e.inText = true := by simpa using hin
  have hopen : n.inText = true := by simp [Node.inText, h.last?_of_inText he hin, hin]
  rw [hclosed] at hopen
  cases hopen

namespace Tree

/-- **The instance `id` has the capture `c`** of its text part `x`. -/
def HasText (g : Grammar) (t : Tree) (id : NodeId) (x : TextPart) (c : Capture) : Prop :=
  ∃ n, t.node? id = some n ∧ .capture c ∈ n.entries ∧ (g.parts n.rule)[c.part]? = some (.simple (.text x))

/-- This capture is its latest entry. -/
def LastText (g : Grammar) (t : Tree) (id : NodeId) (x : TextPart) (c : Capture) : Prop :=
  ∃ n, t.node? id = some n ∧ n.last? = some (.capture c) ∧ (g.parts n.rule)[c.part]? = some (.simple (.text x))

variable {g : Grammar} {t t' : Tree} {active taker id : NodeId} {p : Phrase} {x : TextPart} {c c' : Capture}
  {n : Node} {e e' : Entry}

theorem not_hasText_root : ¬ Tree.root.HasText g id x c := by
  rintro ⟨n, hn, hmem, -⟩
  rw [node?_root hn] at hmem
  cases hmem

theorem LastText.unique (h : t.LastText g id x c) (h' : t.LastText g id x c') : c = c' := by
  obtain ⟨n, hn, hlast, -⟩ := h
  obtain ⟨n', hn', hlast', -⟩ := h'
  cases hn.symm.trans hn'
  exact Entry.capture.inj (Option.some.inj (hlast.symm.trans hlast'))

theorem HasText.closed (h : t.HasText g id x c) (hc : t.Conforms g) (ho : t.OpenOnlyAt active)
    (hclosed : t.inText active = false) : c.inText = false := by
  obtain ⟨n, hn, hmem, -⟩ := h
  refine (hc.legal id n hn).closed_of_mem hmem ?_
  by_contra hin
  rw [← ho id n hn (by simpa using hin), Tree.inText, hn] at hclosed
  exact hin hclosed

/-- **Where the texts of a tree come from** that took a phrase while no text was open.  A text is an old one, or the latest
entry of the instance that took the phrase, and begins with it. -/
theorem Takes.text_arises (h : t.Takes g active p t' taker) (ho : t.OpenOnlyAt active)
    (hclosed : t.inText active = false) (hhas : t'.HasText g id x c) :
    t.HasText g id x c ∨ id = taker ∧ t'.LastText g id x c ∧ x.begin? c.part p = some c := by
  obtain ⟨n, hn, hmem, hat⟩ := hhas
  cases h.arises hn with
  | kept hold | adopted hold => exact Or.inl ⟨_, hold, hmem, hat⟩
  | @replaced m e hold ha htaker =>
    rcases List.mem_cons.mp hmem with he | hmem
    · cases ha with
      | @capture c₀ c₁ part hlast hfin hat' hresume =>
        cases he
        rw [SimplePart.resume?_part hresume] at hat
        cases hat'.symm.trans hat
        -- the text would have been open before
        have hin : m.inText = true := by
          simp [Node.inText, hlast, Entry.inText, (TextPart.resume?_cases hresume).1]
        rw [← ho id m hold hin, Tree.inText, hold, Option.any_some, hin] at hclosed
        cases hclosed
      | fork | separator => cases he
    · exact Or.inl ⟨m, hold, List.mem_of_mem_tail hmem, hat⟩
  | @grown m growth base hold ha htaker =>
    rcases List.mem_cons.mp hmem with he | hmem
    · obtain ⟨i, hgrows⟩ := ha.grows
      cases hgrows with
      | fork | child => cases he
      | capture hle hskip hat' hbegin =>
        cases he
        cases hat'.symm.trans hat
        exact Or.inr ⟨(htaker rfl).symm, ⟨_, hn, rfl, hat⟩, hbegin⟩
    · exact Or.inl ⟨m, hold, hmem, hat⟩
  | @made rule parent? inner base hgrows htaker =>
    have he := List.mem_singleton.mp hmem
    cases hgrows with
    | fork | child => cases he
    | capture hle hskip hat' hbegin =>
      cases he
      cases hat'.symm.trans hat
      exact Or.inr ⟨(htaker rfl).symm, ⟨_, hn, rfl, hat⟩, hbegin⟩

/-- **Where they come from if an open text takes a phrase.**  A text is an old one and closed, or goes on from the one
that was open. -/
theorem HasText.of_replace (hhas : (t.apply active (.replace e')).1.HasText g id x c) (hn : t.node? active = some n)
    (ha : n.Answers g p (.replace e)) (he : e' = e ∨ e' = e.settled) (hc : t.Conforms g) (ho : t.OpenOnlyAt active) :
    (t.HasText g id x c ∧ c.inText = false) ∨
      (t.apply active (.replace e')).1.LastText g id x c ∧
        ∃ c₀, t.HasText g id x c₀ ∧ c₀.inText = true ∧ c₀.part = c.part := by
  obtain ⟨m', hm', hmem, hat⟩ := hhas
  rcases node?_modify_cases hm' with ⟨hne, hold⟩ | ⟨m, rfl, hm, rfl⟩
  · have hclosed : m'.inText = false := by
      by_contra hin
      exact hne (ho id m' hold (by simpa using hin))
    exact Or.inl ⟨⟨m', hold, hmem, hat⟩, (hc.legal id m' hold).closed_of_mem hmem hclosed⟩
  · cases hn.symm.trans hm
    rcases List.mem_cons.mp hmem with hnew | hmem
    · subst hnew
      cases ha with
      | @capture c₀ c₁ part hlast hfin hat' hresume =>
        have hpart : c₀.part = c.part := by
          rw [← SimplePart.resume?_part hresume]
          rcases he with he | he <;> cases he <;> rfl
        rw [hpart] at hat'
        have hat : (g.parts n.rule)[c.part]? = some (.simple (.text x)) := hat
        cases hat'.symm.trans hat
        exact Or.inr ⟨⟨_, hm', rfl, hat⟩, c₀,
          ⟨n, hn, List.mem_of_mem_head? hlast, by rw [hpart]; exact hat'⟩, (TextPart.resume?_cases hresume).1, hpart⟩
      | fork | separator => rcases he with he | he <;> cases he
    · exact Or.inl ⟨⟨n, hn, List.mem_of_mem_tail hmem, hat⟩, (hc.legal _ n hn).inText_tail _ hmem⟩

end Tree

end PhraseTree
