import PhraseTree.Proofs.Grammar.Leading
import PhraseTree.Proofs.Run.Termination
import Mathlib.Data.List.MinMax
import Mathlib.Tactic.Ring

/-!
# How much is read again

A text that leaves its closing phrase outside gives it back, and it is read again: the run *rewinds*.  What the next
text gives back may in part have been given back before, so characters may be read many times.

* `Grammar.longestHandedBack g` — how many characters a text may give back at most;
* `Run.RewindsTo g s text n b` — after `n` characters the next one closes such a text, and the run goes on at place `b`;
* `Run.spent` — the phrases offered, with the one that is still being read; no step spends more than two
  (`Run.spent_step`).

The text that is closed next begins behind the place to which the run rewound last, for nothing was open there.  So the
places to which a run rewinds move on, each of them pays for what is read again from it, and the phrases offered are
bounded (`Grammar.rereading_bounded`).
-/

namespace PhraseTree

/-! ### What texts give back -/

/-- The closing phrase of a text that gives it back. -/
def SimplePart.handedBack? : SimplePart → Option String
  | .text t => if t.handsBack then some t.closing else none
  | .keyword _ | .identifier _ | .number _ | .modifiers _ => none

/-- The simple parts of a part, those along paths included. -/
def Part.simples : Part RuleId → List SimplePart
  | .simple part => [part]
  | .alternatives a => a.paths.flatten
  | .choice _ => []

namespace Grammar

variable {g : Grammar}

/-- The phrases that texts of the grammar give back. -/
def handedBack (g : Grammar) : List String :=
  g.rules.flatMap fun rule => rule.parts.flatMap fun part => part.simples.filterMap SimplePart.handedBack?

/-- The number of characters of the longest of them. -/
def longestHandedBack (g : Grammar) : Nat := (g.handedBack.map String.length).foldr max 0

theorem length_le_longestHandedBack {phrase : String} (h : phrase ∈ g.handedBack) :
    phrase.length ≤ g.longestHandedBack :=
  List.le_max_of_le (List.mem_map_of_mem h) le_rfl

theorem mem_handedBack {rule : RuleId} {part : Part RuleId} {t : TextPart} (hpart : part ∈ g.parts rule)
    (ht : .text t ∈ part.simples) (hgives : t.handsBack = true) : t.closing ∈ g.handedBack := by
  obtain ⟨r, hr, hmem⟩ := exists_rule_of_mem_parts hpart
  refine List.mem_flatMap.mpr ⟨r, hr, List.mem_flatMap.mpr ⟨part, hmem, List.mem_filterMap.mpr ⟨_, ht, ?_⟩⟩⟩
  rw [SimplePart.handedBack?, if_pos hgives]

end Grammar

variable {g : Grammar} {s : Settings}

/-- What a text hands back is its closing phrase. -/
theorem TextPart.eq_closing_of_resume? {t : TextPart} {p : Phrase} {c c' : Capture} {phrase : String}
    (h : t.resume? p c = some c') (hc : (SimplePart.text t).Holds c) (hback : c'.handBack? = some phrase) :
    t.handsBack = true ∧ phrase = t.closing := by
  obtain ⟨hin, ⟨-, rfl⟩ | ⟨-, -, rfl⟩ | ⟨-, hgives, rfl⟩⟩ := resume?_cases h
  · cases (hc.handBack?_of_inText hin).symm.trans hback
  · cases (hc.handBack?_of_inText hin).symm.trans hback
  · exact ⟨hgives, (Option.some.inj hback).symm⟩

theorem Tree.Has.mem_handedBack {keep : Path → Prop} {t : Tree} {x : TextPart} {c : Capture}
    (h : t.Has g keep (.text x) c) (hgives : x.handsBack = true) : x.closing ∈ g.handedBack := by
  obtain ⟨id, n, hn, e, he, hc⟩ := h
  cases hc with
  | own hat => exact Grammar.mem_handedBack (List.mem_of_getElem? hat) (List.mem_singleton_self _) hgives
  | branch hat hb hpath hkeep hc hpart =>
    have hmem : .text x ∈ Part.simples (.alternatives _) :=
      List.mem_flatten.mpr ⟨_, List.mem_of_getElem? hpath, List.mem_of_getElem? hpart⟩
    exact Grammar.mem_handedBack (List.mem_of_getElem? hat) hmem hgives

namespace Run

variable {text again rest : List Char} {r r' : Run} {taken taken' taken₀ : List Phrase} {ch : Char}
  {n b b' low pos : Nat}

/-- **What a text gives back** is a phrase that some text of the grammar gives back. -/
theorem readText_handedBack (hc : r.tree.Conforms g) (hin : r.inText = true) (s : Settings) (ch : Char) :
    (r.readText g s ch).2 = [] ∨ ∃ phrase ∈ g.handedBack, (r.readText g s ch).2 = phrase.toList := by
  have htakes := (resolve_places g s (r.past ch) (.single .chars r.cursor ch) true).takes
    (resolve_of_inText (r := r.past ch) hc hin)
  cases hback : (r.takeChar g s ch).tree.toReread? (r.takeChar g s ch).active with
  | none =>
    rw [readText, giveBack_of_none hback]
    exact Or.inl rfl
  | some back =>
    obtain ⟨phrase, start⟩ := back
    obtain ⟨x, c, c', hold, hnew, hresume, hphrase, -⟩ :=
      htakes.rereads hc hin (fun _ hpath => hpath) hback
    obtain ⟨hgives, rfl⟩ := TextPart.eq_closing_of_resume? hresume (hold.holds hc) hphrase
    rw [readText, giveBack_of_some hback]
    exact Or.inr ⟨_, hnew.mem_handedBack hgives, rfl⟩

theorem Reads.handedBack (h : Reads g s r taken ch r' taken' again) (hc : r.tree.Conforms g) :
    again = [] ∨ ∃ phrase ∈ g.handedBack, again = phrase.toList := by
  cases h with
  | lengthen | begin | skip => exact Or.inl rfl
  | text hin => exact readText_handedBack hc hin s ch

theorem step_handedBack (hc : r.tree.Conforms g) (s : Settings) (ch : Char) :
    (r.step g s ch).2 = [] ∨ ∃ phrase ∈ g.handedBack, (r.step g s ch).2 = phrase.toList := by
  rcases step_reads g s r [] ch with ⟨taken', hread⟩ | ⟨p, taken', -, -, -, hread⟩
  · exact hread.handedBack hc
  · exact hread.handedBack (flush_conforms hc s)

/-! ### What is spent -/

/-- The phrases offered so far, and the one that is being read, which is offered once more. -/
def spent (r : Run) : Nat := r.counters.offered + r.buffer?.toList.length

theorem offered_le_spent (r : Run) : r.counters.offered ≤ r.spent := Nat.le_add_right _ _

/-- To place the phrase that is being read was accounted for. -/
theorem spent_flush (g : Grammar) (s : Settings) (r : Run) : (r.flush g s).spent = r.spent := by
  cases hbuffer : r.buffer? with
  | none => rw [flush_of_none hbuffer]
  | some p =>
    rw [flush_of_some hbuffer, spent, spent, hbuffer]
    exact offered_resolve g s r p true

theorem offered_push_le (g : Grammar) (s : Settings) (r : Run) (kind : PhraseKind) (ch : Char) :
    (r.push g s kind ch).counters.offered ≤ r.counters.offered + 1 := by
  by_cases hkind : kind = .chars
  · subst hkind
    have hoffered := offered_resolve g s (r.hold .chars ch) (r.grown .chars ch) false
    rw [push_chars]
    split <;> exact hoffered.le
  · rw [push_eq_of_ne hkind]
    exact Nat.le_succ _

theorem spent_push_le (g : Grammar) (s : Settings) (r : Run) (kind : PhraseKind) (ch : Char) :
    (r.push g s kind ch).spent ≤ r.spent + 2 := by
  have hoffered := offered_push_le g s r kind ch
  have hbuffer : (r.push g s kind ch).buffer?.toList.length ≤ 1 := Option.length_toList_le
  have hspent := r.offered_le_spent
  rw [spent]
  omega

theorem spent_readText (g : Grammar) (s : Settings) (r : Run) (ch : Char) :
    (r.readText g s ch).1.spent = r.spent + 1 := by
  have hoffered : (r.takeChar g s ch).counters.offered = r.counters.offered + 1 := offered_resolve g s _ _ true
  have hcounters : ∀ r : Run, r.giveBack.1.counters = r.counters := by
    intro r
    unfold giveBack
    split <;> rfl
  rw [readText, spent, spent, giveBack_buffer, takeChar_buffer, hcounters, hoffered]
  omega

theorem Reads.spent_le (h : Reads g s r taken ch r' taken' again) : r'.spent ≤ r.spent + 2 := by
  cases h with
  | lengthen | begin => exact spent_push_le g s r _ ch
  | skip =>
    rw [spent, skip_buffer, Run.skip]
    split <;> exact Nat.le_add_right _ 2
  | text => exact (spent_readText g s r ch).le.trans (Nat.le_succ _)

/-- **A step spends at most two offers.** -/
theorem spent_step (g : Grammar) (s : Settings) (r : Run) (ch : Char) : (r.step g s ch).1.spent ≤ r.spent + 2 := by
  rcases step_reads g s r [] ch with ⟨taken', hread⟩ | ⟨p, taken', -, -, -, hread⟩
  · exact hread.spent_le
  · rw [← spent_flush g s r]
    exact hread.spent_le

/-! ### Where a run rewinds -/

/-- What the next character gives back. -/
def returned (g : Grammar) (s : Settings) : Run × List Char → List Char
  | (_, []) => []
  | (r, ch :: _) => (r.step g s ch).2

/-- **A run rewinds.**  The character after the first `n` closes a text, which gives its closing phrase back, and the
run goes on at place `b`. -/
structure RewindsTo (g : Grammar) (s : Settings) (text : List Char) (n b : Nat) : Prop where
  returned_ne : returned g s (after g s text n) ≠ []
  phrase : ∃ phrase ∈ g.handedBack, returned g s (after g s text n) = phrase.toList
  lt_length : b < text.length
  rest_eq : (after g s text (n + 1)).2 = text.drop b
  cursor_eq : (after g s text (n + 1)).1.cursor = cursorAt .start text b

/-- **A run that has paid for what it has read again**, where `low` is behind no place to which it has rewound.  From
each of them on the longest phrase may have been read again. -/
structure Paid (g : Grammar) (s : Settings) (text : List Char) (n : Nat) (taken : List Phrase) (low pos : Nat) :
    Prop where
  tracks : Tracks g Path.HandsBack {} text (after g s text n).1 taken low pos
  rest_eq : (after g s text n).2 = text.drop pos
  rewound : ∀ i b, i < n → RewindsTo g s text i b → b ≤ low
  spent_le : (after g s text n).1.spent ≤ 2 * (pos + low * g.longestHandedBack)

theorem paid_zero : Paid g s text 0 [] 0 0 where
  tracks := tracks_start
  rest_eq := rfl
  rewound := by simp
  spent_le := Nat.zero_le _

theorem RewindsTo.place_eq (h : RewindsTo g s text n b) (hb : b' ≤ text.length)
    (hrest : (after g s text (n + 1)).2 = text.drop b') : b = b' := by
  have hlt := h.lt_length
  have hlength := congrArg List.length (h.rest_eq.symm.trans hrest)
  rw [List.length_drop, List.length_drop] at hlength
  omega

/-- **A step pays for itself.**  Either the run moves on by one character, or `low` does, and this pays for what is
given back. -/
theorem Tracks.step_spent (h : Tracks g Path.HandsBack {} text r taken₀ low pos)
    (hreached : Reached g s text r taken (ch :: rest)) (hrest : ch :: rest = text.drop pos)
    (hcalm : g.Calm s Path.HandsBack text) (hspent : r.spent ≤ 2 * (pos + low * g.longestHandedBack)) :
    ∃ taken' low' pos', Tracks g Path.HandsBack {} text (r.step g s ch).1 taken' low' pos' ∧
      (r.step g s ch).2 ++ rest = text.drop pos' ∧ low ≤ low' ∧
      ((r.step g s ch).2 ≠ [] → low < low' ∧ low' = pos') ∧
      (r.step g s ch).1.spent ≤ 2 * (pos' + low' * g.longestHandedBack) := by
  obtain ⟨taken', low', pos', h', hrest', hle, hlt⟩ :=
    h.step hreached hrest (fun _ hpath => hpath) (hreached.step_calm hcalm)
  refine ⟨taken', low', pos', h', hrest', hle, hlt, (spent_step g s r ch).trans ?_⟩
  have hplace : pos' + (r.step g s ch).2.length = pos + 1 := by
    have hlength := congrArg List.length hrest
    have hlength' := congrArg List.length hrest'
    have hpos' := h'.pos_le
    rw [List.length_cons, List.length_drop] at hlength
    rw [List.length_append, List.length_drop] at hlength'
    omega
  by_cases hagain : (r.step g s ch).2 = []
  · rw [hagain, List.length_nil] at hplace
    have hmul := Nat.mul_le_mul_right g.longestHandedBack hle
    omega
  · obtain ⟨phrase, hmem, hphrase⟩ := (step_handedBack h.tree.conforms s ch).resolve_left hagain
    have hlength : (r.step g s ch).2.length ≤ g.longestHandedBack := by
      rw [hphrase, String.length_toList]
      exact Grammar.length_le_longestHandedBack hmem
    have hmul := Nat.mul_le_mul_right g.longestHandedBack (hlt hagain).1
    rw [Nat.succ_mul] at hmul
    omega

/-- **One more character is paid for**; if it makes the run rewind, then to a place behind all earlier ones. -/
theorem Paid.succ (h : Paid g s text n taken low pos) (hcalm : g.Calm s Path.HandsBack text) :
    ∃ taken' low' pos', Paid g s text (n + 1) taken' low' pos' ∧
      (returned g s (after g s text n) ≠ [] → low < low' ∧ RewindsTo g s text n low') := by
  obtain ⟨taken₁, hreached⟩ := reached_after g s text n
  obtain ⟨htracks, hrest, hrewound, hspent⟩ := h
  have hearlier : ∀ {low'}, low ≤ low' → (∀ b, RewindsTo g s text n b → b ≤ low') →
      ∀ i b, i < n + 1 → RewindsTo g s text i b → b ≤ low' := by
    intro low' hle hlast i b hi hb
    rcases Nat.lt_or_eq_of_le (Nat.le_of_lt_succ hi) with hi | rfl
    · exact (hrewound i b hi hb).trans hle
    · exact hlast b hb
  rcases hafter : after g s text n with ⟨r, _ | ⟨ch, rest⟩⟩
  · have hsame : after g s text (n + 1) = after g s text n := by rw [after_succ, hafter, advance]
    have hnone : returned g s (after g s text n) = [] := by rw [hafter, returned]
    refine ⟨taken, low, pos, ⟨?_, ?_, hearlier le_rfl fun b hb => absurd hnone hb.returned_ne, ?_⟩, ?_⟩
    · rwa [hsame]
    · rwa [hsame]
    · rwa [hsame]
    · rw [← hafter]
      exact fun hagain => absurd hnone hagain
  · have hnext : after g s text (n + 1) = ((r.step g s ch).1, (r.step g s ch).2 ++ rest) := by
      rw [after_succ, hafter, advance]
    have hreturned : returned g s (after g s text n) = (r.step g s ch).2 := by rw [hafter, returned]
    rw [hafter] at hreached htracks hrest hspent
    obtain ⟨taken', low', pos', htracks', hrest', hle, hlt, hspent'⟩ :=
      htracks.step_spent hreached hrest hcalm hspent
    have hrest₁ : (after g s text (n + 1)).2 = text.drop pos' := by rw [hnext, hrest']
    refine ⟨taken', low', pos', ⟨?_, hrest₁, hearlier hle fun b hb => ?_, ?_⟩, fun hagain => ?_⟩
    · rwa [hnext]
    · have hagain := hb.returned_ne
      rw [hreturned] at hagain
      rw [hb.place_eq htracks'.pos_le hrest₁, (hlt hagain).2]
    · rwa [hnext]
    · rw [← hafter, hreturned] at hagain
      obtain ⟨hlow, rfl⟩ := hlt hagain
      have hne : (r.step g s ch).2 ++ rest ≠ [] := by simp [hagain]
      refine ⟨hlow, ?_, ?_, ?_, hrest₁, ?_⟩
      · rwa [hreturned]
      · rw [hreturned]
        exact (step_handedBack htracks.tree.conforms s ch).resolve_left hagain
      · rw [hrest'] at hne
        exact Nat.lt_of_not_le fun hle => hne (List.drop_eq_nil_of_le hle)
      · rw [hnext]
        exact htracks'.cursor

/-- **A calm run pays for what it reads again**, all the way. -/
theorem paid_after (hcalm : g.Calm s Path.HandsBack text) (n : Nat) :
    ∃ taken low pos, Paid g s text n taken low pos := by
  induction n with
  | zero => exact ⟨[], 0, 0, paid_zero⟩
  | succ n ih =>
    obtain ⟨taken, low, pos, h⟩ := ih
    obtain ⟨taken', low', pos', h', -⟩ := h.succ hcalm
    exact ⟨taken', low', pos', h'⟩

/-- **The places to which a calm run rewinds move on.** -/
theorem rewindsTo_after (hcalm : g.Calm s Path.HandsBack text) (hagain : returned g s (after g s text n) ≠ []) :
    ∃ b, RewindsTo g s text n b ∧ ∀ i b', i < n → RewindsTo g s text i b' → b' < b := by
  obtain ⟨taken, low, pos, h⟩ := paid_after hcalm n
  obtain ⟨taken', low', pos', -, hrewinds⟩ := h.succ hcalm
  obtain ⟨hlt, hto⟩ := hrewinds hagain
  exact ⟨low', hto, fun i b' hi hb' => Nat.lt_of_le_of_lt (h.rewound i b' hi hb') hlt⟩

/-- At the end of a calm run all places are paid for. -/
theorem offered_finish_le (hcalm : g.Calm s Path.HandsBack text) (hend : after g s text n = (r, [])) :
    (r.finish g s).counters.offered ≤ 2 * text.length * (g.longestHandedBack + 1) := by
  obtain ⟨taken, low, pos, h⟩ := paid_after hcalm n
  have hlow := h.tracks.low_le
  have hpos : pos = text.length := by
    have hnil : text.drop pos = [] := by rw [← h.rest_eq, hend]
    have hge := List.drop_eq_nil_iff.mp hnil
    have hle := h.tracks.pos_le
    omega
  have hfinish : (r.finish g s).counters.offered = (r.flush g s).counters.offered := by
    unfold finish reportEnd
    dsimp only
    split
    · split <;> rfl
    · rfl
  have hspent := h.spent_le
  rw [hend] at hspent
  calc (r.finish g s).counters.offered = (r.flush g s).counters.offered := hfinish
    _ ≤ (r.flush g s).spent := offered_le_spent _
    _ = r.spent := spent_flush g s r
    _ ≤ 2 * (pos + low * g.longestHandedBack) := hspent
    _ ≤ 2 * (text.length + text.length * g.longestHandedBack) := by
      rw [hpos]
      exact Nat.mul_le_mul_left 2 (Nat.add_le_add_left (Nat.mul_le_mul_right _ (hpos ▸ hlow)) _)
    _ = 2 * text.length * (g.longestHandedBack + 1) := by ring

end Run

/-- **How much a run reads again is bounded.**  Where no path gives anything back, the places to which a run rewinds are
places of the text, each behind those before it.  The run comes to its end, and the phrases it offers are at most twice
as many as the characters of the text, taken once for themselves and once for each character of the longest phrase that
is given back, and one more. -/
theorem Grammar.rereading_bounded {g : Grammar} (hpaths : g.KeepsPaths) (s : Settings) (text : List Char) :
    (∀ n, Run.returned g s (Run.after g s text n) ≠ [] → ∃ b, Run.RewindsTo g s text n b) ∧
      (∀ i j b b', i < j → Run.RewindsTo g s text i b → Run.RewindsTo g s text j b' → b < b') ∧
      ∃ n r, Run.after g s text n = (r, []) ∧ g.read? s text = some (r.finish g s) ∧
        (r.finish g s).counters.offered ≤ 2 * text.length * (g.longestHandedBack + 1) + 1 := by
  have hcalm : g.Calm s Path.HandsBack text := hpaths.apart.calm s text
  refine ⟨fun n hagain => ?_, fun i j b b' hij hb hb' => ?_, ?_⟩
  · obtain ⟨b, hto, -⟩ := Run.rewindsTo_after hcalm hagain
    exact ⟨b, hto⟩
  · obtain ⟨b'', hto, hbehind⟩ := Run.rewindsTo_after hcalm hb'.returned_ne
    rw [hb'.place_eq hto.lt_length.le hto.rest_eq]
    exact hbehind i b hij hb
  · obtain ⟨r', hread⟩ := Option.isSome_iff_exists.mp (read?_isSome hcalm)
    obtain ⟨r, hr, rfl⟩ := Option.map_eq_some_iff.mp hread
    obtain ⟨n, hn⟩ := Run.after_of_readAll hr
    exact ⟨n, r, hn, hread, (Run.offered_finish_le hcalm hn).trans (Nat.le_succ _)⟩

namespace Listing

/-- Two items with remarks, each closed by a stop that is read again. -/
def remarked : List Char := ['a', ' ', '1', '#', '.', 'b', ' ', '1', '#', '.']

theorem rereading_remarked :
    (grammar false).KeepsPaths ∧
      (∃ b b', Run.RewindsTo (grammar false) {} remarked 4 b ∧ Run.RewindsTo (grammar false) {} remarked 10 b' ∧ b < b') ∧
      ∃ n r, Run.after (grammar false) {} remarked n = (r, []) ∧
        (grammar false).read? {} remarked = some (r.finish (grammar false) {}) ∧
        (r.finish (grammar false) {}).counters.offered ≤
          2 * remarked.length * ((grammar false).longestHandedBack + 1) + 1 := by
  have hpaths : (grammar false).KeepsPaths := by decide
  obtain ⟨hrewinds, hincreasing, hbound⟩ := Grammar.rereading_bounded hpaths {} remarked
  obtain ⟨b, hb⟩ := hrewinds 4 (by decide +kernel)
  obtain ⟨b', hb'⟩ := hrewinds 10 (by decide +kernel)
  exact ⟨hpaths, ⟨b, b', hb, hb', hincreasing 4 10 b b' (by decide) hb hb'⟩, hbound⟩

end Listing

end PhraseTree
