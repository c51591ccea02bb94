import PhraseTree.Proofs.Text.Quotation
import PhraseTree.Proofs.Tree.Captures

/-!
# Captures against the text

Where the captures of a tree stand in the text, while the characters up to `pos` were taken.

* `Capture.OpenFrom base text low pos taken c a`: the open text `c` began at `a`, not before `low`, and quotes all
  characters up to `pos`; those behind its opening phrase were taken one by one;
* `GivesBack base text low pos taken phrase start b`: a closed text gives back the characters from `b` up to `pos`;
* `Tree.Tracked`: every capture but those of modifiers is a quotation, and every open text is open from some place.

`Tree.Takes.tracked`: a tracked tree is tracked after it took a phrase.
-/

namespace PhraseTree

/-- The latest phrases taken are the single characters from `a` up to `b`. -/
def Singles (base : Cursor) (text : List Char) (taken : List Phrase) (a b : Nat) : Prop :=
  ∀ k, a + k < b → ∃ p, taken[k]? = some p ∧ p.span = ⟨cursorAt base text (b - 1 - k), cursorAt base text (b - k)⟩

/-- **An open text** that began at `a` and holds all characters up to `pos`. -/
structure Capture.OpenFrom (base : Cursor) (text : List Char) (low pos : Nat) (taken : List Phrase) (c : Capture)
    (a : Nat) : Prop where
  quotes : Quotes base text c.span c.value.toList a pos
  low_le : low ≤ a
  opening_pos : 0 < c.opening
  opening_le : a + c.opening ≤ pos
  singles : Singles base text taken (a + c.opening) pos

/-- **What a closed text gives back**: the characters from `b` up to `pos`. -/
structure GivesBack (base : Cursor) (text : List Char) (low pos : Nat) (taken : List Phrase) (phrase : String)
    (start : Cursor) (b : Nat) : Prop where
  low_lt : low < b
  lt_pos : b < pos
  start_eq : start = cursorAt base text b
  phrase_eq : phrase.toList = slice text b pos
  singles : Singles base text taken b pos

variable {base : Cursor} {text : List Char} {taken taken' : List Phrase} {low pos a b : Nat} {p : Phrase} {c c' : Capture}

/-! ### Single characters -/

theorem Singles.nil : Singles base text taken a a := fun k hk => by omega

theorem Singles.mono (h : Singles base text taken a pos) (hab : a ≤ b) : Singles base text taken b pos :=
  fun k hk => h k (by omega)

theorem Singles.cons {content : List Char} (h : Singles base text taken a pos)
    (hp : Quotes base text p.span content pos (pos + 1)) : Singles base text (p :: taken) a (pos + 1) := by
  intro k hk
  cases k with
  | zero => exact ⟨p, rfl, hp.span_eq⟩
  | succ k =>
    obtain ⟨q, hq, hspan⟩ := h k (by omega)
    have h1 : pos + 1 - 1 - (k + 1) = pos - 1 - k := by omega
    have h2 : pos + 1 - (k + 1) = pos - k := by omega
    exact ⟨q, hq, by rw [h1, h2, hspan]⟩

theorem GivesBack.length_eq {phrase : String} {start : Cursor} (h : GivesBack base text low pos taken phrase start b)
    (hpos : pos ≤ text.length) : phrase.toList.length = pos - b := by
  rw [h.phrase_eq, length_slice hpos]

/-! ### One capture -/

theorem SimplePart.quotes_of_begin {part : SimplePart} {i : Nat} (h : part.begin? i p = some c)
    (hp : Quotes base text p.span p.text.toList a b) : Quotes base text c.span c.value.toList a b := by
  rw [begin?_value h, (begin?_spec h).2.2.1]
  exact hp

theorem SimplePart.openFrom_of_begin {part : SimplePart} {i : Nat} (h : part.begin? i p = some c)
    (hin : c.inText = true) (hp : Quotes base text p.span p.text.toList a b) (hlow : low ≤ a) (hlt : a < b) :
    c.OpenFrom base text low b taken a := by
  have hopening : c.opening = b - a := by rw [(begin?_spec h).2.2.2.2 hin, hp.length_eq]
  have hend : a + c.opening = b := by omega
  exact ⟨quotes_of_begin h hp, hlow, by omega, by omega, by rw [hend]; exact Singles.nil⟩

/-- **An open text takes the character after it**: it stays open, or is closed; then it may give back the end of what
it quotes. -/
theorem TextPart.resume?_tracked {t : TextPart} (h : t.resume? p c = some c') (ho : c.OpenFrom base text low pos taken a)
    (hnone : c.handBack? = none) (hp : Quotes base text p.span p.text.toList pos (pos + 1)) :
    (∃ b, Quotes base text c'.span c'.value.toList a b) ∧
      (c'.inText = true → c'.OpenFrom base text low (pos + 1) (p :: taken) a) ∧
      ∀ phrase, c'.handBack? = some phrase →
        ∃ b, GivesBack base text low (pos + 1) (p :: taken) phrase c'.span.stop b := by
  obtain ⟨hquotes, hlow, hpos, hle, hsingles⟩ := ho
  obtain ⟨hin, hcases⟩ := resume?_cases h
  have hwhole : Quotes base text ⟨c.span.start, p.span.stop⟩ (c.value ++ p.text).toList a (pos + 1) := by
    rw [String.toList_append]
    exact hquotes.append hp
  have htaken : Singles base text (p :: taken) (a + c.opening) (pos + 1) := hsingles.cons hp
  rcases hcases with ⟨-, rfl⟩ | ⟨-, -, rfl⟩ | ⟨hcloses, -, rfl⟩
  · exact ⟨⟨_, hwhole⟩, fun _ => ⟨hwhole, hlow, hpos, Nat.le_succ_of_le hle, htaken⟩,
      by simp [Capture.upTo, hnone]⟩
  · exact ⟨⟨_, hwhole⟩, by simp, by simp [Capture.upTo, hnone]⟩
  · obtain ⟨hne, hlen, hsuffix⟩ := closes_iff.mp hcloses
    have hvalue := hwhole.length_eq
    have hclosing : 0 < t.closing.toList.length := by
      rw [List.length_pos_iff, ne_eq, String.toList_eq_nil_iff]
      exact hne
    rw [String.length_toList] at hvalue hclosing
    -- what is kept ends where the closing phrase starts
    obtain ⟨kept, hkept⟩ : ∃ kept, kept = (c.value ++ p.text).length - t.closing.length := ⟨_, rfl⟩
    have hquotes' : Quotes base text ⟨c.span.start, c.span.start.advanceOver (t.keep (c.value ++ p.text))⟩
        (t.keep (c.value ++ p.text)) a (a + kept) := by
      rw [keep, ← hkept]
      exact hwhole.take (by omega)
    have hb : a + kept = pos + 1 - t.closing.toList.length := by
      rw [String.length_toList]
      omega
    refine ⟨⟨a + kept, ?_⟩, by simp, ?_⟩
    · show Quotes base text _ (String.ofList (t.keep (c.value ++ p.text))).toList a _
      rw [String.toList_ofList]
      exact hquotes'
    · intro phrase hphrase
      have : t.closing = phrase := by simpa using hphrase
      subst this
      refine ⟨a + kept, by omega, by omega, congrArg Span.stop hquotes'.span_eq, ?_, htaken.mono (by omega)⟩
      rw [hb]
      exact hwhole.suffix_eq hsuffix

/-! ### All captures of a tree -/

/-- **A tracked tree**: it conforms to the grammar, and its captures stand in the text as they should. -/
structure Tree.Tracked (g : Grammar) (keep : Path → Prop) (t : Tree) (active : NodeId) (t₀ : Tree) (base : Cursor)
    (text : List Char) (taken : List Phrase) (low pos : Nat) : Prop where
  conforms : t.Conforms g
  openOnly : t.OpenOnlyAt active
  quoted : ∀ part c, t.Has g keep part c → (∀ m, part ≠ .modifiers m) →
    (∃ c₀, t₀.Has g keep part c₀ ∧ c.settled = c₀.settled) ∨ ∃ a b, Quotes base text c.span c.value.toList a b
  opened : ∀ part c, t.Has g keep part c → c.inText = true → ∃ a, c.OpenFrom base text low pos taken a

/-- What becomes of a capture where a phrase is taken.  An open text takes nothing but the character after it. -/
theorem SimplePart.Comes.tracked {part : SimplePart} {old : Capture → Prop} (h : part.Comes p old c)
    (hholds : ∀ c, old c → part.Holds c) (hp : Quotes base text p.span p.text.toList a b) (hlow : low ≤ a) (hlt : a < b)
    (hopened : ∀ c, old c → c.inText = true → b = a + 1 ∧ ∃ a₀, c.OpenFrom base text low a taken a₀) :
    ((∀ m, part ≠ .modifiers m) → old c ∨ ∃ a b, Quotes base text c.span c.value.toList a b) ∧
      (c.inText = true → ∃ a₀, c.OpenFrom base text low b (p :: taken) a₀) := by
  cases h with
  | stays hold hin => exact ⟨fun _ => Or.inl hold, by simp [hin]⟩
  | begins hbegin =>
    exact ⟨fun _ => Or.inr ⟨a, b, quotes_of_begin hbegin hp⟩,
      fun hin => ⟨a, openFrom_of_begin hbegin hin hp hlow hlt⟩⟩
  | @goesOn c₀ c hold hresume =>
    cases part with
    | keyword | identifier | number => cases hresume
    | modifiers m =>
      have hc₀ := hholds c₀ hold
      refine ⟨fun hm => absurd rfl (hm m), fun hin => ?_⟩
      have hin₀ := inText_of_resume? hc₀ hresume hin
      obtain ⟨t, ht⟩ := hc₀.text_of_inText hin₀
      cases ht
    | text t =>
      have hin₀ := (TextPart.resume?_cases hresume).1
      obtain ⟨rfl, a₀, ho⟩ := hopened c₀ hold hin₀
      obtain ⟨⟨b, hquotes⟩, hopen, -⟩ :=
        TextPart.resume?_tracked hresume ho ((hholds c₀ hold).handBack?_of_inText hin₀) hp
      exact ⟨fun _ => Or.inr ⟨a₀, b, hquotes⟩, fun hin => ⟨a₀, hopen hin⟩⟩

namespace Tree

variable {g : Grammar} {keep : Path → Prop} {t₀ t t' : Tree} {active taker : NodeId} {low' pos' : Nat}

/-- A tree without open texts is tracked from where it stands. -/
theorem Tracked.start (hc : t.Conforms g) (ho : t.OpenOnlyAt active)
    (hclosed : ∀ part c, t.Has g keep part c → c.inText = false) :
    t.Tracked g keep active t base text taken low pos where
  conforms := hc
  openOnly := ho
  quoted := fun part c hc _ => Or.inl ⟨c, hc, rfl⟩
  opened := fun part c hc hin => by
    rw [hclosed part c hc] at hin
    cases hin

/-- Where no text is open, it does not matter how far the text was read. -/
theorem Tracked.move (h : t.Tracked g keep active t₀ base text taken low pos)
    (hclosed : ∀ part c, t.Has g keep part c → c.inText = false) :
    t.Tracked g keep active t₀ base text taken' low' pos' where
  conforms := h.conforms
  openOnly := h.openOnly
  quoted := h.quoted
  opened := fun part c hc hin => by
    rw [hclosed part c hc] at hin
    cases hin

theorem Tracked.closed (h : t.Tracked g keep active t₀ base text taken low pos) (hin : t.inText active = false) :
    ∀ part c, t.Has g keep part c → c.inText = false := by
  intro part c hc
  by_contra hcin
  rw [hc.inText h.conforms h.openOnly (by simpa using hcin)] at hin
  cases hin

/-- **A tracked tree is tracked after it took a phrase.** -/
theorem Takes.tracked (ht : t.Takes g active p t' taker) (h : t.Tracked g keep active t₀ base text taken low a)
    (hp : Quotes base text p.span p.text.toList a b) (hlow : low ≤ a) (hlt : a < b)
    (hone : t.inText active = true → b = a + 1) : t'.Tracked g keep taker t₀ base text (p :: taken) low b := by
  have hcomes : ∀ part c, t'.Has g keep part c →
      ((∀ m, part ≠ .modifiers m) → t.Has g keep part c ∨ ∃ a b, Quotes base text c.span c.value.toList a b) ∧
        (c.inText = true → ∃ a₀, c.OpenFrom base text low b (p :: taken) a₀) := fun part c hc =>
    (ht.comes h.conforms h.openOnly hc).tracked (fun c hc => hc.holds h.conforms) hp hlow hlt
      fun c hc hin => ⟨hone (hc.inText h.conforms h.openOnly hin), h.opened part c hc hin⟩
  exact {
    conforms := ht.conforms h.conforms
    openOnly := ht.openOnlyAt h.conforms h.openOnly
    quoted := fun part c hc hm => ((hcomes part c hc).1 hm).elim (fun hold => h.quoted part c hold hm) Or.inr
    opened := fun part c hc => (hcomes part c hc).2 }

/-- **What the tree gives back** are the latest characters, and they begin behind `low`. -/
theorem Takes.givesBack {phrase : String} {start : Cursor} (ht : t.Takes g active p t' taker)
    (h : t.Tracked g keep active t₀ base text taken low pos) (hin : t.inText active = true)
    (hp : Quotes base text p.span p.text.toList pos (pos + 1)) (hkeep : ∀ path : Path, path.HandsBack → keep path)
    (hback : t'.toReread? taker = some (phrase, start)) :
    ∃ b, GivesBack base text low (pos + 1) (p :: taken) phrase start b := by
  obtain ⟨x, c, c', hc, hc', hresume, hphrase, rfl⟩ := ht.rereads h.conforms hin hkeep hback
  have hcin := (TextPart.resume?_cases hresume).1
  obtain ⟨a, ho⟩ := h.opened _ c hc hcin
  exact (TextPart.resume?_tracked hresume ho ((hc.holds h.conforms).handBack?_of_inText hcin) hp).2.2 phrase hphrase

theorem Tracked.settle (h : t.Tracked g keep active t₀ base text taken low pos) (id : NodeId) :
    (t.settle id).Tracked g keep active t₀ base text taken low pos where
  conforms := h.conforms.settle id
  openOnly := h.openOnly.settle id
  quoted := fun part c hc hm => by
    obtain ⟨c₀, hc₀, rfl | rfl⟩ := hc.of_settle
    · exact h.quoted part _ hc₀ hm
    · exact h.quoted part c₀ hc₀ hm
  opened := fun part c hc hin => by
    obtain ⟨c₀, hc₀, rfl | rfl⟩ := hc.of_settle
    · exact h.opened part _ hc₀ hin
    · obtain ⟨a, ho⟩ := h.opened part c₀ hc₀ hin
      exact ⟨a, ho.quotes, ho.low_le, ho.opening_pos, ho.opening_le, ho.singles⟩

end Tree

end PhraseTree
