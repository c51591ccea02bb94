import PhraseTree.CharClass
import PhraseTree.Diagnostic
import PhraseTree.Text.Blank
import Mathlib.Data.List.TakeWhile

/-!
# The tokens of a text

What a text is made of can be told from the character classes alone.  From left to right, a character that opens a
phrase does so, and the phrase goes on as long as the characters continue it; white space is skipped, and any other
character is unknown.

* `CharClasses.lex k c text` — the tokens of `text`, which is read from the cursor `c`;
* `CharClasses.lexFrom k open? c text` — the same where a phrase may have been begun before, with one equation for each
  way in which the next character is read;
* `Phrase.Consists p pieces` — the pieces make up the phrase, in order;
* `CharClasses.isOther_iff`, `CharClasses.lexFrom_run`: runs of other characters may be cut anywhere.
-/

namespace PhraseTree

/-- What a text is made of, white space apart. -/
inductive Token where
  | phrase (p : Phrase)
  | unknown (span : Span) (ch : Char)
deriving DecidableEq

/-- The report about a character that no phrase may hold. -/
def Diagnostic.unknown (span : Span) (ch : Char) : Diagnostic := ⟨span, String.singleton ch, .unknownCharacter, []⟩

namespace Token

/-- The word or number. -/
def lexeme? : Token → Option Phrase
  | .phrase p => if p.kind = .chars then none else some p
  | .unknown _ _ => none

/-- The run of other characters. -/
def run? : Token → Option Phrase
  | .phrase p => if p.kind = .chars then some p else none
  | .unknown _ _ => none

/-- The report about an unknown character. -/
def report? : Token → Option Diagnostic
  | .unknown span ch => some (.unknown span ch)
  | .phrase _ => none

end Token

namespace Phrase

/-- The phrase with more characters at its end. -/
def extend (p : Phrase) (more : List Char) : Phrase :=
  { p with text := p.text ++ String.ofList more, span := { p.span with stop := p.span.stop.advanceOver more } }

variable {p q : Phrase} {kind : PhraseKind} {c : Cursor} {ch : Char} {more : List Char}

@[simp] theorem kind_push : (p.push ch).kind = p.kind := rfl

@[simp] theorem stop_push : (p.push ch).span.stop = p.span.stop.advance ch := rfl

@[simp] theorem extend_nil (p : Phrase) : p.extend [] = p := by
  simp [extend]

theorem extend_cons (p : Phrase) (ch : Char) (more : List Char) : p.extend (ch :: more) = (p.push ch).extend more := by
  have htext : p.text ++ String.ofList (ch :: more) = p.text.push ch ++ String.ofList more := by
    rw [String.ext_iff]
    simp
  simp only [extend, push, htext, Cursor.advanceOver_cons]

theorem extend_single (kind : PhraseKind) (c : Cursor) (ch : Char) (more : List Char) :
    (single kind c ch).extend more = read kind c (String.ofList (ch :: more)) := by
  have htext : String.singleton ch ++ String.ofList more = String.ofList (ch :: more) := by
    rw [String.ext_iff]
    simp
  simp only [extend, single, read, htext, String.toList_ofList, Cursor.advanceOver_cons]

/-- **The pieces make up the phrase**, in order and without gaps. -/
inductive Consists : Phrase → List Phrase → Prop
  | whole {p : Phrase} (hne : p.text ≠ "") : Consists p [p]
  | cut {p q : Phrase} {pieces : List Phrase} (hne : p.text ≠ "") (hkind : q.kind = p.kind)
      (hstart : q.span.start = p.span.stop) (h : Consists q pieces) :
      Consists ⟨p.text ++ q.text, p.kind, ⟨p.span.start, q.span.stop⟩⟩ (p :: pieces)

theorem Consists.kind_eq {pieces : List Phrase} (h : p.Consists pieces) : ∀ q ∈ pieces, q.kind = p.kind := by
  induction h with
  | whole => simp
  | cut hne hkind hstart h ih =>
    intro q hq
    rcases List.mem_cons.mp hq with rfl | hq
    · rfl
    · rw [ih q hq, hkind]

/-- A phrase that goes on consists of what it was and of what follows. -/
theorem Consists.extend {pieces : List Phrase} (hne : p.text ≠ "")
    (h : (read p.kind p.span.stop (String.ofList more)).Consists pieces) : (p.extend more).Consists (p :: pieces) := by
  have hcut := Consists.cut (q := read p.kind p.span.stop (String.ofList more)) hne rfl rfl h
  simpa only [Phrase.extend, read, String.toList_ofList] using hcut

end Phrase

namespace CharClasses

variable (k : CharClasses)

/-- **The tokens of a text**, which is read from the cursor `c`. -/
def lex (c : Cursor) : List Char → List Token
  | [] => []
  | ch :: rest =>
    match k.startingKind ch with
    | some kind =>
      .phrase (.read kind c (String.ofList (ch :: rest.takeWhile (k.continues kind)))) ::
        lex (c.advanceOver (ch :: rest.takeWhile (k.continues kind))) (rest.dropWhile (k.continues kind))
    | none =>
      if Text.isBlank ch then lex (c.advance ch) rest else .unknown ⟨c, c.advance ch⟩ ch :: lex (c.advance ch) rest
termination_by text => text.length
decreasing_by
  · exact Nat.lt_succ_of_le (List.length_dropWhile_le _ _)
  · exact Nat.lt_succ_self _
  · exact Nat.lt_succ_self _

/-- The tokens of what is left of a text after `open?` was begun. -/
def lexFrom (open? : Option Phrase) (c : Cursor) (text : List Char) : List Token :=
  match open? with
  | none => k.lex c text
  | some p => .phrase (p.extend (text.takeWhile (k.continues p.kind))) ::
      k.lex (c.advanceOver (text.takeWhile (k.continues p.kind))) (text.dropWhile (k.continues p.kind))

variable {k} {p : Phrase} {kind : PhraseKind} {c : Cursor} {ch : Char} {rest : List Char}

/-! ### Reading on -/

theorem lex_nil : k.lex c [] = [] := by rw [lex]

@[simp] theorem lexFrom_none {text : List Char} : k.lexFrom none c text = k.lex c text := rfl

theorem lexFrom_some_nil : k.lexFrom (some p) c [] = [.phrase p] := by
  simp [lexFrom, lex_nil]

theorem lex_of_opens (h : k.startingKind ch = some kind) :
    k.lex c (ch :: rest) = k.lexFrom (some (.single kind c ch)) (c.advance ch) rest := by
  rw [lex, h, lexFrom, Phrase.extend_single]
  rfl

theorem lex_of_blank (h : k.startingKind ch = none) (hblank : Text.isBlank ch = true) :
    k.lex c (ch :: rest) = k.lex (c.advance ch) rest := by
  rw [lex, h]
  exact if_pos hblank

theorem lex_of_unknown (h : k.startingKind ch = none) (hblank : Text.isBlank ch = false) :
    k.lex c (ch :: rest) = .unknown ⟨c, c.advance ch⟩ ch :: k.lex (c.advance ch) rest := by
  rw [lex, h]
  exact if_neg (by simp [hblank])

theorem lexFrom_of_continues (h : k.continues p.kind ch = true) :
    k.lexFrom (some p) c (ch :: rest) = k.lexFrom (some (p.push ch)) (c.advance ch) rest := by
  simp only [lexFrom, List.takeWhile_cons_of_pos h, List.dropWhile_cons_of_pos h, Phrase.extend_cons,
    Cursor.advanceOver_cons, Phrase.kind_push]

theorem lexFrom_of_ends (h : k.continues p.kind ch = false) :
    k.lexFrom (some p) c (ch :: rest) = .phrase p :: k.lex c (ch :: rest) := by
  have hnot : ¬ k.continues p.kind ch = true := by simp [h]
  simp only [lexFrom, List.takeWhile_cons_of_neg hnot, List.dropWhile_cons_of_neg hnot, Phrase.extend_nil,
    Cursor.advanceOver_nil]

/-! ### Runs of other characters -/

/-- What continues a run of other characters is what opens one. -/
theorem isOther_iff : k.isOther ch = true ↔ k.startingKind ch = some .chars := by
  unfold isOther startingKind
  cases k.startsWord ch <;> cases k.startsNumber ch <;> simp

/-- **A run of other characters may be cut anywhere**: what follows a piece is no token of its own, or the rest of the
run. -/
theorem lexFrom_run (hkind : p.kind = .chars) (c : Cursor) (rest : List Char) :
    k.lexFrom (some p) c rest = .phrase p :: k.lex c rest ∨
      ∃ more tokens, k.lex c rest = .phrase (.read .chars c (String.ofList more)) :: tokens ∧
        k.lexFrom (some p) c rest = .phrase (p.extend more) :: tokens := by
  cases rest with
  | nil => exact Or.inl (by rw [lexFrom_some_nil, lex_nil])
  | cons ch rest =>
    cases hother : k.isOther ch with
    | false =>
      have hends : k.continues p.kind ch = false := by rw [hkind]; exact hother
      exact Or.inl (lexFrom_of_ends hends)
    | true =>
      have hcontinues : k.continues p.kind ch = true := by rw [hkind]; exact hother
      refine Or.inr ⟨ch :: rest.takeWhile (k.continues .chars),
        k.lex ((c.advance ch).advanceOver (rest.takeWhile (k.continues .chars))) (rest.dropWhile (k.continues .chars)),
        ?_, ?_⟩
      · rw [lex_of_opens (isOther_iff.mp hother), lexFrom, Phrase.extend_single]
        rfl
      · rw [lexFrom_of_continues hcontinues, lexFrom, Phrase.kind_push, hkind, Phrase.extend_cons]

end CharClasses

end PhraseTree
