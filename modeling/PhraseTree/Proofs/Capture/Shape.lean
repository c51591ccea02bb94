import PhraseTree.Fork
import Mathlib.Data.List.Chain
import Mathlib.Data.List.Nodup

/-!
# The shape of captures

What captures and forks look like, whatever phrases they were given:

* `SimplePart.Holds part c` — what a capture `c` of `part` holds: the keyword, one word or number, a set of modifiers,
  or a text behind its opening phrase;
* `Path.Progress path captures` — captures along a path, in order of the parts, with only optional parts left out;
* `Alternatives.Holds a f` — a fork whose branches all make such progress.

Each is established where something begins (`begin?`) and kept where it goes on (`resume?`, `Path.take?`).
-/

namespace PhraseTree

/-! ### Parts that are left out -/

/-- Every part from place `i` up to place `j` may be left out. -/
def Skips {α : Type} (isOptional : α → Bool) (parts : List α) (i j : Nat) : Prop :=
  ∀ k, i ≤ k → k < j → ∃ part, parts[k]? = some part ∧ isOptional part = true

section Skips

variable {α : Type} {isOptional : α → Bool} {parts : List α} {i j : Nat}

theorem Skips.refl : Skips isOptional parts i i := fun k h1 h2 => by omega

theorem Skips.cons {part : α} (hp : parts[i]? = some part) (ho : isOptional part = true)
    (h : Skips isOptional parts (i + 1) j) : Skips isOptional parts i j := by
  intro k h1 h2
  rcases Nat.lt_or_eq_of_le h1 with hk | rfl
  · exact h k hk h2
  · exact ⟨part, hp, ho⟩

/-- Beyond its first part, a list leaves out the first part and goes on in the rest. -/
theorem skips_cons_succ {first : α} {rest : List α} :
    Skips isOptional (first :: rest) 0 (i + 1) ↔ isOptional first = true ∧ Skips isOptional rest 0 i := by
  constructor
  · intro h
    obtain ⟨part, hat, ho⟩ := h 0 le_rfl (Nat.succ_pos i)
    cases hat
    exact ⟨ho, fun k _ hk => h (k + 1) (Nat.zero_le _) (Nat.succ_lt_succ hk)⟩
  · rintro ⟨ho, h⟩ k - hk
    cases k with
    | zero => exact ⟨first, rfl, ho⟩
    | succ k => exact h k (Nat.zero_le _) (Nat.lt_of_succ_lt_succ hk)

end Skips

/-! ### What a capture holds -/

namespace SimplePart

/-- What a capture of the part holds.  Only a text is ever open, and only a closed one has something to be read
again. -/
def Holds (part : SimplePart) (c : Capture) : Prop :=
  match part with
  | .keyword phrase => c.values = [phrase] ∧ c.finished = true ∧ c.inText = false ∧ c.handBack? = none
  | .identifier _ | .number _ => (∃ v, c.values = [v]) ∧ c.finished = true ∧ c.inText = false ∧ c.handBack? = none
  | .modifiers m =>
    c.values ≠ [] ∧ c.values.Nodup ∧ (∀ v ∈ c.values, v ∈ m.phrases) ∧
      (m.singular = true → c.values.length = 1 ∧ c.finished = true) ∧ c.inText = false ∧ c.handBack? = none
  | .text t =>
    (∃ v, c.values = [v]) ∧ c.opening ≤ c.value.toList.length ∧
      (∀ o, t.opening? = some o → c.opening = o.toList.length ∧ o.toList <+: c.value.toList) ∧
      (c.inText = true → c.finished = false) ∧
      (∀ phrase, c.handBack? = some phrase → t.handsBack = true ∧ c.inText = false)

variable {part : SimplePart} {i : Nat} {p : Phrase} {c c' : Capture}

theorem Holds.finished_of_inText (h : part.Holds c) (hin : c.inText = true) : c.finished = false := by
  cases part <;> simp_all [Holds]

theorem Holds.text_of_inText (h : part.Holds c) (hin : c.inText = true) : ∃ t, part = .text t := by
  cases part <;> simp_all [Holds]

/-- Only closed texts that give their closing phrase back have something to be read again. -/
theorem Holds.text_of_handBack {phrase : String} (h : part.Holds c) (hback : c.handBack? = some phrase) :
    ∃ t, part = .text t ∧ t.handsBack = true ∧ c.inText = false := by
  cases part with
  | text t => exact ⟨t, rfl, h.2.2.2.2 phrase hback⟩
  | _ => simp_all [Holds]

theorem Holds.handBack?_of_inText (h : part.Holds c) (hin : c.inText = true) : c.handBack? = none := by
  cases hback : c.handBack? with
  | none => rfl
  | some phrase =>
    obtain ⟨t, rfl, -, hclosed⟩ := h.text_of_handBack hback
    rw [hin] at hclosed
    cases hclosed

theorem Holds.settled (h : part.Holds c) : part.Holds c.settled := by
  cases part with
  | keyword => exact ⟨h.1, h.2.1, h.2.2.1, rfl⟩
  | identifier | number => exact ⟨h.1, h.2.1, h.2.2.1, rfl⟩
  | modifiers => exact ⟨h.1, h.2.1, h.2.2.1, h.2.2.2.1, h.2.2.2.2.1, rfl⟩
  | text => exact ⟨h.1, h.2.1, h.2.2.1, h.2.2.2.1, by simp [Capture.settled]⟩

/-! ### Beginning -/

/-- Where a part begins, the capture is of the whole phrase. -/
theorem begin?_spec (h : part.begin? i p = some c) :
    c.part = i ∧ c.values = [p.text] ∧ c.span = p.span ∧ c.handBack? = none ∧
      (c.inText = true → c.opening = p.text.toList.length) := by
  cases part <;> simp only [begin?, Modifiers.begin?, TextPart.begin?] at h <;> split at h <;> cases h <;>
    simp [Capture.ofPhrase]

theorem begin?_part (h : part.begin? i p = some c) : c.part = i := (begin?_spec h).1

theorem begin?_value (h : part.begin? i p = some c) : c.value = p.text := by
  simp [Capture.value, (begin?_spec h).2.1]

theorem begin?_holds (h : part.begin? i p = some c) : part.Holds c := by
  cases part with
  | keyword phrase =>
    simp only [begin?] at h
    split at h
    · next hp => cases h; exact ⟨by simp [Capture.ofPhrase, hp], rfl, rfl, rfl⟩
    · cases h
  | identifier key | number key =>
    simp only [begin?] at h
    split at h <;> cases h
    exact ⟨⟨_, rfl⟩, rfl, rfl, rfl⟩
  | modifiers m =>
    simp only [begin?, Modifiers.begin?] at h
    split at h
    · next hp =>
      cases h
      refine ⟨by simp [Capture.ofPhrase], by simp [Capture.ofPhrase], by simpa [Capture.ofPhrase] using hp, ?_, rfl, rfl⟩
      intro hs
      exact ⟨rfl, by simp [hs]⟩
    · cases h
  | text t =>
    simp only [begin?, TextPart.begin?] at h
    split at h
    · next ho =>
      cases h
      refine ⟨⟨_, rfl⟩, by simp [Capture.ofPhrase, Capture.value], ?_, fun _ => rfl, by simp [Capture.ofPhrase]⟩
      intro o hopen
      have : o = p.text := by simpa [TextPart.opens, hopen] using ho
      simp [Capture.ofPhrase, Capture.value, this]
    · cases h

end SimplePart

/-! ### Going on -/

/-- **How an open text takes a phrase**: it stays open, is closed by a phrase that belongs to it, or is closed by one
that it gives back. -/
theorem TextPart.resume?_cases {t : TextPart} {p : Phrase} {c c' : Capture} (h : t.resume? p c = some c') :
    c.inText = true ∧
      ((t.closes c.opening (c.value ++ p.text) = false ∧ c' = c.upTo p [c.value ++ p.text]) ∨
        (t.closes c.opening (c.value ++ p.text) = true ∧ t.handsBack = false ∧
          c' = { c.upTo p [c.value ++ p.text] with finished := true, inText := false }) ∨
        (t.closes c.opening (c.value ++ p.text) = true ∧ t.handsBack = true ∧
          c' = { c with
            values := [String.ofList (t.keep (c.value ++ p.text))]
            span := { c.span with stop := c.span.start.advanceOver (t.keep (c.value ++ p.text)) }
            finished := true
            inText := false
            handBack? := some t.closing })) := by
  unfold resume? at h
  split at h
  · next hin =>
    refine ⟨hin, ?_⟩
    dsimp only at h
    split at h
    · next hc =>
      split at h
      · next hb => cases h; exact Or.inr (Or.inr ⟨hc, hb, rfl⟩)
      · next hb => cases h; exact Or.inr (Or.inl ⟨hc, by simpa using hb, rfl⟩)
    · next hc => cases h; exact Or.inl ⟨by simpa using hc, rfl⟩
  · cases h

theorem TextPart.resume?_isSome {t : TextPart} {p : Phrase} {c : Capture} (hin : c.inText = true) :
    (t.resume? p c).isSome = true := by
  unfold resume?
  rw [if_pos hin]
  dsimp only
  split
  · split <;> rfl
  · rfl

theorem TextPart.keep_prefix {t : TextPart} {v : String} : t.keep v <+: v.toList := List.take_prefix _ _

theorem TextPart.length_keep {t : TextPart} {n : Nat} {v : String} (h : t.closes n v = true) :
    (t.keep v).length + t.closing.toList.length = v.toList.length ∧ n ≤ (t.keep v).length := by
  obtain ⟨-, hlen, -⟩ := closes_iff.mp h
  simp only [keep, List.length_take, String.length_toList]
  omega

theorem Modifiers.resume?_cases {m : Modifiers} {p : Phrase} {c c' : Capture} (h : m.resume? p c = some c') :
    p.text ∈ m.phrases ∧ p.text ∉ c.values ∧
      c' = { c.upTo p (c.values ++ [p.text]) with
        finished := decide (m.phrases.length ≤ (c.values ++ [p.text]).length) } := by
  unfold resume? at h
  split at h
  · next hp => cases h; exact ⟨hp.1, hp.2, rfl⟩
  · cases h

namespace SimplePart

variable {part : SimplePart} {i : Nat} {p : Phrase} {c c' : Capture}

theorem resume?_part (h : part.resume? p c = some c') : c'.part = c.part := by
  cases part with
  | keyword | identifier | number => cases h
  | modifiers m => rw [(Modifiers.resume?_cases h).2.2]; rfl
  | text t => rcases (TextPart.resume?_cases h).2 with ⟨-, rfl⟩ | ⟨-, -, rfl⟩ | ⟨-, -, rfl⟩ <;> rfl

/-- A capture that goes on is not the same as before. -/
theorem resume?_ne (h : part.resume? p c = some c') (hp : p.text ≠ "") : c' ≠ c := by
  cases part with
  | keyword | identifier | number => cases h
  | modifiers m =>
    rw [(Modifiers.resume?_cases h).2.2]
    intro hsame
    have hvalues : c.values ++ [p.text] = c.values := congrArg Capture.values hsame
    simp at hvalues
  | text t =>
    intro hsame
    obtain ⟨hin, ⟨-, hc⟩ | ⟨-, -, hc⟩ | ⟨-, -, hc⟩⟩ := TextPart.resume?_cases h
    · have hvalue : c'.value = c.value ++ p.text := by rw [hc]; rfl
      rw [hsame] at hvalue
      exact hp (by simpa using hvalue.symm)
    · have hclosed : c'.inText = false := by rw [hc]
      simp [hsame, hin] at hclosed
    · have hclosed : c'.inText = false := by rw [hc]
      simp [hsame, hin] at hclosed

/-- A capture that is open after a phrase was open before it. -/
theorem inText_of_resume? (hc : part.Holds c) (h : part.resume? p c = some c') (hin : c'.inText = true) :
    c.inText = true := by
  cases part with
  | keyword | identifier | number => cases h
  | modifiers m => rw [(Modifiers.resume?_cases h).2.2] at hin; exact hin
  | text t => exact (TextPart.resume?_cases h).1

theorem resume?_isSome_of_inText (hc : part.Holds c) (hin : c.inText = true) : (part.resume? p c).isSome = true := by
  obtain ⟨t, rfl⟩ := hc.text_of_inText hin
  exact TextPart.resume?_isSome hin

theorem resume?_holds (hc : part.Holds c) (hf : c.finished = false) (h : part.resume? p c = some c') :
    part.Holds c' := by
  cases part with
  | keyword | identifier | number => cases h
  | modifiers m =>
    obtain ⟨hmem, hnew, rfl⟩ := Modifiers.resume?_cases h
    obtain ⟨-, hnodup, hsub, hsing, hin, hback⟩ := hc
    refine ⟨by simp [Capture.upTo], ?_, ?_, ?_, hin, hback⟩
    · have hdisj : ∀ v ∈ c.values, ¬ v = p.text := fun v hv he => hnew (by rw [← he]; exact hv)
      simpa [Capture.upTo, List.nodup_append, hnodup] using hdisj
    · intro v hv
      rcases List.mem_append.mp hv with hv | hv
      · exact hsub v hv
      · simpa [List.mem_singleton.mp hv] using hmem
    · -- a singular set is finished with its first phrase
      intro hs
      rw [(hsing hs).2] at hf
      cases hf
  | text t =>
    obtain ⟨hin, hcases⟩ := TextPart.resume?_cases h
    have hnone := hc.handBack?_of_inText hin
    obtain ⟨-, hopen, hstart, hfin, -⟩ := hc
    have hlen : c.opening ≤ (c.value ++ p.text).toList.length := by simp; omega
    have hstarts : ∀ o, t.opening? = some o →
        c.opening = o.toList.length ∧ o.toList <+: (c.value ++ p.text).toList := fun o ho => by
      refine ⟨(hstart o ho).1, ?_⟩
      rw [String.toList_append]
      exact (hstart o ho).2.trans (List.prefix_append _ _)
    rcases hcases with ⟨-, rfl⟩ | ⟨-, -, rfl⟩ | ⟨hcl, hgives, rfl⟩
    · exact ⟨⟨_, rfl⟩, hlen, hstarts, hfin, by simp [Capture.upTo, hnone]⟩
    · exact ⟨⟨_, rfl⟩, hlen, hstarts, by simp, by simp [Capture.upTo, hnone]⟩
    · have hkeep := (TextPart.length_keep hcl).2
      refine ⟨⟨_, rfl⟩, by simpa [Capture.value] using hkeep, fun o ho => ⟨(hstarts o ho).1, ?_⟩, by simp,
        by simp [hgives]⟩
      show o.toList <+: (String.ofList (t.keep (c.value ++ p.text))).toList
      rw [String.toList_ofList]
      refine List.prefix_of_prefix_length_le (hstarts o ho).2 TextPart.keep_prefix ?_
      rw [← (hstarts o ho).1]
      exact hkeep

end SimplePart

/-! ### Progress along a path -/

namespace Path

variable {path : Path} {p : Phrase} {i : Nat} {c : Capture} {last? : Option Capture} {captures : List Capture}

theorem begin?_spec {rest : Path} (h : begin? p i rest = some c) (hrest : path.drop i = rest) :
    i ≤ c.part ∧ Skips SimplePart.isOptional path i c.part ∧
      ∃ part, path[c.part]? = some part ∧ part.begin? c.part p = some c := by
  induction rest generalizing i with
  | nil => cases h
  | cons part rest ih =>
    have hi : path[i]? = some part := by
      rw [← List.head?_drop, hrest]; rfl
    unfold begin? at h
    split at h
    · next c' hc =>
      cases h
      have hpart := SimplePart.begin?_part hc
      refine ⟨Nat.le_of_eq hpart.symm, by rw [hpart]; exact Skips.refl, part, by rw [hpart]; exact hi, ?_⟩
      rw [hpart]; exact hc
    · split at h
      · next ho =>
        obtain ⟨hle, hskip, hbegin⟩ := ih h (by rw [← List.tail_drop, hrest]; rfl)
        exact ⟨by omega, hskip.cons hi ho, hbegin⟩
      · cases h

/-- **What a path does with a phrase.**  The latest capture goes on, or a later part begins; the latter only where the
former is impossible. -/
theorem take?_cases (h : path.take? p last? = some c) :
    (∃ last part, last? = some last ∧ last.finished = false ∧ path[last.part]? = some part ∧
        part.resume? p last = some c) ∨
      ((∀ last, last? = some last → last.finished = false →
          ∃ part, path[last.part]? = some part ∧ part.resume? p last = none) ∧
        ∃ i part, (∀ last, last? = some last → i = path.next last.part) ∧ (last? = none → i = 0) ∧ i ≤ c.part ∧
          Skips SimplePart.isOptional path i c.part ∧ path[c.part]? = some part ∧ part.begin? c.part p = some c) := by
  cases last? with
  | none =>
    obtain ⟨hle, hskip, part, hpart, hbegin⟩ := begin?_spec h List.drop_zero
    exact Or.inr ⟨by simp, 0, part, by simp, by simp, hle, hskip, hpart, hbegin⟩
  | some last =>
    have honward : begin? p (path.next last.part) (path.drop (path.next last.part)) = some c →
        ∃ i part, (∀ l, some last = some l → i = path.next l.part) ∧ (some last = none → i = 0) ∧ i ≤ c.part ∧
          Skips SimplePart.isOptional path i c.part ∧ path[c.part]? = some part ∧ part.begin? c.part p = some c := by
      intro hb
      obtain ⟨hle, hskip, part, hpart, hbegin⟩ := begin?_spec hb rfl
      exact ⟨_, part, by simp, by simp, hle, hskip, hpart, hbegin⟩
    simp only [take?] at h
    split at h
    · next hf => exact Or.inr ⟨by simp [hf], honward h⟩
    · next hf =>
      split at h
      · cases h
      · next part hpart =>
        split at h
        · next hr =>
          cases h
          exact Or.inl ⟨last, part, rfl, by simpa using hf, hpart, hr⟩
        · next hr => exact Or.inr ⟨fun l hl _ => by cases hl; exact ⟨part, hpart, hr⟩, honward h⟩

/-- **Progress along a path**, the latest capture first: captures of its parts in order, where only optional parts were
left out and no text was left open. -/
structure Progress (path : Path) (captures : List Capture) : Prop where
  nonempty : captures ≠ []
  holds : ∀ c ∈ captures, ∃ part, path[c.part]? = some part ∧ part.Holds c
  onward : captures.IsChain fun later earlier =>
    earlier.inText = false ∧ earlier.part < later.part ∧
      Skips SimplePart.isOptional path (earlier.part + 1) later.part
  first : ∀ c, captures.getLast? = some c → Skips SimplePart.isOptional path 0 c.part

theorem progress_begin (h : path.take? p none = some c) : path.Progress [c] := by
  obtain ⟨-, hskip, part, hpart, hbegin⟩ := begin?_spec h List.drop_zero
  exact {
    nonempty := by simp
    holds := by simpa using ⟨part, hpart, SimplePart.begin?_holds hbegin⟩
    onward := by simp
    first := by simpa using hskip }

namespace Progress

theorem head (h : path.Progress (c :: captures)) : ∃ part, path[c.part]? = some part ∧ part.Holds c :=
  h.holds c (by simp)

theorem inText_tail {d : Capture} (h : path.Progress (d :: captures)) : ∀ c ∈ captures, c.inText = false := by
  have hchain := h.onward
  clear h
  induction captures generalizing d with
  | nil => simp
  | cons e rest ih =>
    obtain ⟨hd, hrest⟩ := List.isChain_cons_cons.mp hchain
    intro c hc
    rcases List.mem_cons.mp hc with rfl | hc
    · exact hd.1
    · exact ih hrest c hc

/-- Progress with its latest capture changed in place. -/
theorem replace {d d' : Capture} {part : SimplePart} (h : path.Progress (d :: captures)) (hpart : d'.part = d.part)
    (hat : path[d.part]? = some part) (hd' : part.Holds d') : path.Progress (d' :: captures) where
  nonempty := by simp
  holds := by
    intro c hc
    rcases List.mem_cons.mp hc with rfl | hc
    · exact ⟨part, by rw [hpart]; exact hat, hd'⟩
    · exact h.holds c (by simp [hc])
  onward := by
    have := h.onward
    cases captures with
    | nil => simp
    | cons e rest =>
      obtain ⟨he, hrest⟩ := List.isChain_cons_cons.mp this
      exact List.isChain_cons_cons.mpr ⟨by rw [hpart]; exact he, hrest⟩
  first := by
    have := h.first
    cases captures with
    | nil => simpa [hpart] using this d rfl
    | cons e rest => simpa using this

theorem settled {d : Capture} (h : path.Progress (d :: captures)) : path.Progress (d.settled :: captures) := by
  obtain ⟨part, hpart, hd⟩ := h.head
  exact h.replace rfl hpart hd.settled

/-- **What a path that has made progress does with a phrase.**  The latest capture goes on, or a later part begins; then
the latest capture is no open text, since that would have gone on. -/
theorem take?_cases (h : path.Progress captures) (ht : path.take? p captures.head? = some c) :
    ∃ d rest part, captures = d :: rest ∧ path[c.part]? = some part ∧
      ((Branch.record captures c = c :: rest ∧ c.part = d.part ∧ d.finished = false ∧ part.resume? p d = some c) ∨
        (Branch.record captures c = c :: d :: rest ∧ d.inText = false ∧ d.part < c.part ∧
          Skips SimplePart.isOptional path (d.part + 1) c.part ∧ part.begin? c.part p = some c)) := by
  cases captures with
  | nil => exact absurd rfl h.nonempty
  | cons d rest =>
    obtain ⟨dpart, hdpart, hd⟩ := h.head
    rcases Path.take?_cases ht with ⟨last, part, hlast, hf, hat, hr⟩ | ⟨hno, i, part, hi, -, hle, hskip, hat, hb⟩
    · cases hlast
      have hpart := SimplePart.resume?_part hr
      exact ⟨d, rest, part, rfl, by rw [hpart]; exact hat, Or.inl ⟨by simp [Branch.record, hpart], hpart, hf, hr⟩⟩
    · have hi' : i = d.part + 1 := by
        rw [hi d rfl, next_of_lt (List.getElem?_eq_some_iff.mp hdpart).1]
      subst hi'
      have hin : d.inText = false := by
        by_contra hin
        have hin : d.inText = true := by simpa using hin
        obtain ⟨part', hpart', hnone⟩ := hno d rfl (hd.finished_of_inText hin)
        have : part' = dpart := by simpa [hpart'] using hdpart
        have hsome := SimplePart.resume?_isSome_of_inText (p := p) hd hin
        rw [← this, hnone] at hsome
        cases hsome
      have hne : d.part ≠ c.part := by omega
      exact ⟨d, rest, part, rfl, hat, Or.inr ⟨by simp [Branch.record, hne], hin, by omega, hskip, hb⟩⟩

theorem take?_of_inText {part : SimplePart} (h : path.Progress captures) (hlast : captures.head? = some c)
    (hat : path[c.part]? = some part) (hin : c.inText = true) :
    ∃ c', part.resume? p c = some c' ∧ path.take? p captures.head? = some c' := by
  obtain ⟨part', hat', hholds⟩ := h.holds c (List.mem_of_mem_head? hlast)
  cases hat.symm.trans hat'
  obtain ⟨c', hc'⟩ := Option.isSome_iff_exists.mp (SimplePart.resume?_isSome_of_inText (p := p) hholds hin)
  exact ⟨c', hc', by simp [hlast, Path.take?, hholds.finished_of_inText hin, hat, hc']⟩

/-- **Progress is kept by every phrase that the path takes.** -/
theorem record (h : path.Progress captures) (ht : path.take? p captures.head? = some c) :
    path.Progress (Branch.record captures c) := by
  obtain ⟨d, rest, part, rfl, hat, ⟨hrec, hpart, hf, hr⟩ | ⟨hrec, hin, hlt, hskip, hb⟩⟩ := h.take?_cases ht
  · obtain ⟨dpart, hdpart, hd⟩ := h.head
    have hat' : path[d.part]? = some part := by rw [← hpart]; exact hat
    cases hat'.symm.trans hdpart
    rw [hrec]
    exact h.replace hpart hat' (SimplePart.resume?_holds hd hf hr)
  · rw [hrec]
    exact {
      nonempty := by simp
      holds := by
        intro x hx
        rcases List.mem_cons.mp hx with rfl | hx
        · exact ⟨part, hat, SimplePart.begin?_holds hb⟩
        · exact h.holds x hx
      onward := List.isChain_cons_cons.mpr ⟨⟨hin, hlt, hskip⟩, h.onward⟩
      first := by simpa using h.first }

theorem record_ne (h : path.Progress captures) (ht : path.take? p captures.head? = some c) (hp : p.text ≠ "") :
    Branch.record captures c ≠ captures := by
  obtain ⟨d, rest, part, rfl, -, ⟨hrec, -, -, hresume⟩ | ⟨hrec, -⟩⟩ := h.take?_cases ht
  · rw [hrec]
    intro hsame
    exact SimplePart.resume?_ne hresume hp (List.cons.inj hsame).1
  · rw [hrec]
    exact List.cons_ne_self c (d :: rest)

end Progress

end Path

/-! ### Forks -/

/-- **What a fork holds**: branches along different paths that each make progress. -/
structure Alternatives.Holds (a : Alternatives) (f : Fork) : Prop where
  nonempty : f.branches ≠ []
  distinct : (f.branches.map Branch.path).Nodup
  progress : ∀ b ∈ f.branches, ∃ path, a.paths[b.path]? = some path ∧ path.Progress b.captures
  satisfied : f.satisfied = f.branches.any (·.isSatisfied a.paths)

section Fork

variable {a : Alternatives} {i : Nat} {p : Phrase} {f f' : Fork} {branches : List Branch}

theorem Fork.of?_eq_some (h : Fork.of? a i branches = some f) :
    branches ≠ [] ∧ f = ⟨i, branches, branches.any (·.isSatisfied a.paths)⟩ := by
  unfold Fork.of? at h
  split at h
  · cases h
  · next hne => cases h; exact ⟨by simpa using hne, rfl⟩

theorem Fork.of?_isSome : (Fork.of? a i branches).isSome = true ↔ ∃ b, b ∈ branches := by
  unfold Fork.of?
  cases branches <;> simp

theorem Branch.head?_record (captures : List Capture) (c : Capture) : (Branch.record captures c).head? = some c := by
  unfold Branch.record
  split
  · rfl
  · split <;> rfl

theorem Branch.take?_eq_some {b b' : Branch} {paths : List Path} (h : b.take? paths p = some b') :
    ∃ path c, paths[b.path]? = some path ∧ path.take? p b.last? = some c ∧
      b' = { b with captures := Branch.record b.captures c } := by
  unfold Branch.take? at h
  split at h
  · next path hpath =>
    obtain ⟨c, hc, rfl⟩ := Option.map_eq_some_iff.mp h
    exact ⟨path, c, hpath, hc, rfl⟩
  · cases h

/-- The branches of a new fork. -/
theorem Alternatives.begin?_spec (h : a.begin? i p = some f) :
    f.part = i ∧ ∀ b ∈ f.branches, ∃ path c, a.paths[b.path]? = some path ∧ path.take? p none = some c ∧
      b.captures = [c] := by
  obtain ⟨-, rfl⟩ := Fork.of?_eq_some h
  refine ⟨rfl, fun b hb => ?_⟩
  obtain ⟨⟨path, k⟩, hmem, hk⟩ := List.mem_filterMap.mp hb
  obtain ⟨c, hc, rfl⟩ := Option.map_eq_some_iff.mp hk
  exact ⟨path, c, List.mk_mem_zipIdx_iff_getElem?.mp hmem, hc, rfl⟩

/-- The branches of a fork that goes on. -/
theorem Alternatives.resume?_spec (h : a.resume? i p f = some f') :
    f'.part = i ∧ ∀ b' ∈ f'.branches, ∃ b ∈ f.branches, b.take? a.paths p = some b' := by
  obtain ⟨-, rfl⟩ := Fork.of?_eq_some h
  exact ⟨rfl, fun b' hb => List.mem_filterMap.mp hb⟩

theorem Alternatives.mem_resume? {b b' : Branch} (h : a.resume? i p f = some f') (hb : b ∈ f.branches)
    (ht : b.take? a.paths p = some b') : b' ∈ f'.branches := by
  obtain ⟨-, rfl⟩ := Fork.of?_eq_some h
  exact List.mem_filterMap.mpr ⟨b, hb, ht⟩

/-- Going through a list, some entries may be dropped, and what is kept of the others stays in order. -/
theorem sublist_filterMap {α β γ : Type} {pick : α → Option β} {key : β → γ} (key' : α → γ)
    (hkey : ∀ x y, pick x = some y → key y = key' x) (l : List α) :
    ((l.filterMap pick).map key).Sublist (l.map key') := by
  induction l with
  | nil => simp
  | cons x l ih =>
    cases h : pick x with
    | none => simpa [h] using ih.cons (key' x)
    | some y => simpa [h, hkey x y h] using ih.cons_cons (key' x)

namespace Alternatives

theorem begin?_holds (h : a.begin? i p = some f) : a.Holds f where
  nonempty := by obtain ⟨hne, rfl⟩ := Fork.of?_eq_some h; exact hne
  distinct := by
    obtain ⟨-, rfl⟩ := Fork.of?_eq_some h
    refine (sublist_filterMap Prod.snd ?_ a.paths.zipIdx).nodup ?_
    · intro x b hb
      obtain ⟨c, -, rfl⟩ := Option.map_eq_some_iff.mp hb
      rfl
    · rw [List.zipIdx_map_snd]
      exact List.nodup_range'
  satisfied := by obtain ⟨-, rfl⟩ := Fork.of?_eq_some h; rfl
  progress := fun b hb => by
    obtain ⟨path, c, hpath, hc, hcs⟩ := (begin?_spec h).2 b hb
    exact ⟨path, hpath, by rw [hcs]; exact Path.progress_begin hc⟩

theorem resume?_holds (hf : a.Holds f) (h : a.resume? i p f = some f') : a.Holds f' where
  nonempty := by obtain ⟨hne, rfl⟩ := Fork.of?_eq_some h; exact hne
  distinct := by
    obtain ⟨-, rfl⟩ := Fork.of?_eq_some h
    refine (sublist_filterMap Branch.path ?_ f.branches).nodup hf.distinct
    intro b b' hb
    obtain ⟨path, c, -, -, rfl⟩ := Branch.take?_eq_some hb
    rfl
  satisfied := by obtain ⟨-, rfl⟩ := Fork.of?_eq_some h; rfl
  progress := fun b' hb' => by
    obtain ⟨b, hb, ht⟩ := (resume?_spec h).2 b' hb'
    obtain ⟨path, c, hpath, hc, rfl⟩ := Branch.take?_eq_some ht
    obtain ⟨path', hpath', hprog⟩ := hf.progress b hb
    have : path' = path := by simpa [hpath] using hpath'.symm
    exact ⟨path, hpath, (this ▸ hprog).record hc⟩

/-- A fork that goes on is not the same as before. -/
theorem resume?_ne (hf : a.Holds f) (h : a.resume? i p f = some f') (hp : p.text ≠ "") : f' ≠ f := by
  rintro rfl
  -- a branch of the same path as before would have to be the same branch
  obtain ⟨b', hb'⟩ := List.exists_mem_of_ne_nil _ hf.nonempty
  obtain ⟨b, hb, ht⟩ := (resume?_spec h).2 b' hb'
  obtain ⟨path, c, hpath, hc, rfl⟩ := Branch.take?_eq_some ht
  obtain ⟨path', hpath', hprog⟩ := hf.progress b hb
  cases hpath.symm.trans hpath'
  have hsame := List.inj_on_of_nodup_map hf.distinct hb' hb rfl
  exact hprog.record_ne hc hp (congrArg Branch.captures hsame)

theorem Holds.settled (h : a.Holds f) : a.Holds f.settled where
  nonempty := by simpa [Fork.settled] using h.nonempty
  distinct := by
    have hpath : ∀ b : Branch, b.settled.path = b.path := fun b => by unfold Branch.settled; split <;> rfl
    simpa [Fork.settled, Function.comp_def, hpath] using h.distinct
  satisfied := by
    rw [Fork.settled, List.any_map, h.satisfied]
    congr 1
    funext b
    simp only [Function.comp, Branch.settled, Branch.isSatisfied]
    rcases hb : b.captures with _ | ⟨c, rest⟩ <;> simp [Branch.last?, hb, Capture.settled]
  progress := by
    simp only [Fork.settled, List.forall_mem_map]
    intro b hb
    obtain ⟨path, hpath, hprog⟩ := h.progress b hb
    refine ⟨path, ?_, ?_⟩
    · unfold Branch.settled
      split <;> exact hpath
    · unfold Branch.settled
      split
      · exact hprog
      · next c rest hcs => rw [hcs] at hprog; exact hprog.settled

/-- A fork with an open text goes on with every phrase. -/
theorem resume?_isSome_of_inText (h : a.Holds f) (hin : f.inText = true) : (a.resume? i p f).isSome = true := by
  obtain ⟨b, hb, hbin⟩ := List.any_eq_true.mp hin
  obtain ⟨path, hpath, hprog⟩ := h.progress b hb
  have hlast : ∃ c, b.captures.head? = some c ∧ c.inText = true := by
    simpa [Branch.inText, Branch.last?, Option.any_eq_true] using hbin
  obtain ⟨c, hc, hcin⟩ := hlast
  obtain ⟨part, hpart, -⟩ := hprog.holds c (List.mem_of_mem_head? (by simp [hc]))
  obtain ⟨c', -, hc'⟩ := hprog.take?_of_inText (p := p) hc hpart hcin
  have hmem : { b with captures := Branch.record b.captures c' } ∈ f.branches.filterMap (·.take? a.paths p) :=
    List.mem_filterMap.mpr ⟨b, hb, by simp [Branch.take?, Branch.last?, hpath, hc']⟩
  have hne : (f.branches.filterMap (·.take? a.paths p)).isEmpty = false := by
    rw [List.isEmpty_eq_false_iff]
    exact List.ne_nil_of_mem hmem
  simp [resume?, Fork.of?, hne]

end Alternatives

end Fork

end PhraseTree
