import PhraseTree.Proofs.Capture.Shape
import Mathlib.Data.List.Perm.Subperm

/-!
# Modifiers are a set

A modifiers part that is not singular takes each of its phrases once, in any order.  It counts what it took to tell
whether it is finished, which is right as long as no phrase is declared twice.

* `SimplePart.collected part i ps` — what becomes of a part that is offered `ps` one after the other, until it is
  finished: its capture, and the phrases that went into it;
* `Modifiers.gathered m i accepted` — the capture of modifiers that took the phrases `accepted`;
* `Modifiers.collected_eq`: the capture is the one of the candidates among the phrases, each where it occurs first;
* `Modifiers.complete_iff`: counting comes to having all phrases, none of them declared twice;
* `Modifiers.collected_set` says all of it.
-/

namespace PhraseTree

variable {m : Modifiers} {i : Nat} {p : Phrase} {ps qs accepted : List Phrase}

/-! ### Offers -/

/-- Offers `p` to a part with the given capture, which took the phrases `accepted`.  A finished capture is not offered
anything, and a phrase that is refused changes nothing. -/
def SimplePart.collect (part : SimplePart) (i : Nat) (before : Option Capture × List Phrase) (p : Phrase) :
    Option Capture × List Phrase :=
  if before.1.any (·.finished) then before
  else
    match part.take? i p before.1 with
    | some c => (some c, before.2 ++ [p])
    | none => before

/-- The capture of a part that is offered `ps` one after the other, and the phrases it took. -/
def SimplePart.collected (part : SimplePart) (i : Nat) (ps : List Phrase) : Option Capture × List Phrase :=
  ps.foldl (part.collect i) (none, [])

namespace Modifiers

/-- Whether `p` is a candidate that is not among the phrases taken before. -/
def IsNew (m : Modifiers) (accepted : List Phrase) (p : Phrase) : Prop :=
  p.text ∈ m.phrases ∧ p.text ∉ accepted.map Phrase.text

instance (m : Modifiers) (accepted : List Phrase) (p : Phrase) : Decidable (m.IsNew accepted p) :=
  inferInstanceAs (Decidable (p.text ∈ m.phrases ∧ p.text ∉ accepted.map Phrase.text))

/-- The phrases taken after `p` was offered. -/
def taking (m : Modifiers) (accepted : List Phrase) (p : Phrase) : List Phrase :=
  if m.IsNew accepted p then accepted ++ [p] else accepted

/-- **The capture of modifiers that took the given phrases**, from the first to the last of them. -/
def gathered (m : Modifiers) (i : Nat) : List Phrase → Option Capture
  | [] => none
  | first :: rest => some {
      part := i
      values := (first :: rest).map Phrase.text
      span := ⟨first.span.start, ((first :: rest).getLast (List.cons_ne_nil _ _)).span.stop⟩
      finished := decide (m.phrases.length ≤ (first :: rest).length) }

theorem gathered_eq_none : m.gathered i accepted = none ↔ accepted = [] := by
  cases accepted <;> simp [gathered]

theorem isSome_gathered_append (m : Modifiers) (i : Nat) (accepted : List Phrase) (p : Phrase) :
    (m.gathered i (accepted ++ [p])).isSome = true := by
  cases accepted <;> rfl

/-! ### What is taken -/

/-- The phrases are different candidates. -/
structure Distinct (m : Modifiers) (accepted : List Phrase) : Prop where
  nodup : (accepted.map Phrase.text).Nodup
  declared : ∀ v ∈ accepted.map Phrase.text, v ∈ m.phrases

theorem Distinct.taking (h : m.Distinct accepted) (p : Phrase) : m.Distinct (m.taking accepted p) := by
  unfold Modifiers.taking
  split
  · next hnew =>
    constructor
    · rw [List.map_append, List.map_singleton, ← List.concat_eq_append]
      exact h.nodup.concat hnew.2
    · intro v hv
      rw [List.map_append, List.mem_append] at hv
      rcases hv with hv | hv
      · exact h.declared v hv
      · rw [List.mem_singleton.mp hv]
        exact hnew.1
  · exact h

theorem distinct_taken (m : Modifiers) (ps : List Phrase) : m.Distinct (ps.foldl m.taking []) :=
  List.foldlRecOn ps m.taking ⟨List.nodup_nil, fun _ hv => nomatch hv⟩ fun _ h p _ => h.taking p

/-! ### Counting -/

/-- **Counting comes to having all phrases**, if none is declared twice. -/
theorem complete_iff (h : m.Distinct accepted) :
    m.phrases.length ≤ accepted.length ↔ (∀ v ∈ m.phrases, v ∈ accepted.map Phrase.text) ∧ m.phrases.Nodup := by
  have hsub : List.Subperm (accepted.map Phrase.text) m.phrases := h.nodup.subperm h.declared
  rw [← List.length_map (f := Phrase.text)]
  constructor
  · intro hle
    have hperm := hsub.perm_of_length_le hle
    exact ⟨fun v hv => hperm.mem_iff.mpr hv, hperm.nodup_iff.mp h.nodup⟩
  · rintro ⟨hall, hnodup⟩
    exact (hnodup.subperm hall).length_le

/-- **What modifiers do with a phrase**: they take it just if it is a candidate that they did not take before. -/
theorem take?_gathered (hplural : m.singular = false) (i : Nat) (accepted : List Phrase) (p : Phrase) :
    (SimplePart.modifiers m).take? i p (m.gathered i accepted) =
      if m.IsNew accepted p then m.gathered i (accepted ++ [p]) else none := by
  cases accepted with
  | nil =>
    unfold gathered SimplePart.take? SimplePart.begin? Modifiers.begin? IsNew
    by_cases hmem : p.text ∈ m.phrases
    · have hpos := List.length_pos_of_mem hmem
      have hone : (m.phrases.length == 1) = decide (m.phrases.length ≤ 1) := by
        rw [beq_eq_decide, decide_eq_decide]
        omega
      simp [hmem, hplural, hone, Capture.ofPhrase]
    · simp [hmem]
  | cons first rest =>
    unfold gathered SimplePart.take? SimplePart.resume? Modifiers.resume? IsNew
    simp [Capture.upTo]

theorem isSome_take?_gathered (hplural : m.singular = false) :
    ((SimplePart.modifiers m).take? i p (m.gathered i accepted)).isSome = true ↔ m.IsNew accepted p := by
  rw [take?_gathered hplural]
  split
  · next hnew => exact iff_of_true (m.isSome_gathered_append i accepted p) hnew
  · next hnew => exact iff_of_false Bool.false_ne_true hnew

theorem finished_gathered {c : Capture} (h : m.Distinct accepted) (hc : m.gathered i accepted = some c) :
    c.finished = true ↔ (∀ v ∈ m.phrases, v ∈ accepted.map Phrase.text) ∧ m.phrases.Nodup := by
  rw [← complete_iff h]
  cases accepted with
  | nil => cases hc
  | cons first rest =>
    cases hc
    exact decide_eq_true_iff

theorem not_isNew_of_finished (h : m.Distinct accepted)
    (hfinished : (m.gathered i accepted).any (·.finished) = true) (p : Phrase) : ¬ m.IsNew accepted p := by
  obtain ⟨c, hc, hfin⟩ := (Option.any_eq_true _ _).mp hfinished
  exact fun hnew => hnew.2 (((finished_gathered h hc).mp hfin).1 p.text hnew.1)

/-- **The capture is that of the candidates among the phrases**, each where it occurs first. -/
theorem collected_eq (hplural : m.singular = false) (i : Nat) (ps : List Phrase) :
    (SimplePart.modifiers m).collected i ps = (m.gathered i (ps.foldl m.taking []), ps.foldl m.taking []) := by
  induction ps using List.reverseRecOn with
  | nil => rfl
  | append_singleton ps p ih =>
    have hdistinct := m.distinct_taken ps
    unfold SimplePart.collected at ih ⊢
    rw [List.foldl_append, List.foldl_append, ih]
    generalize ps.foldl m.taking [] = accepted at hdistinct
    show (SimplePart.modifiers m).collect i (m.gathered i accepted, accepted) p =
      (m.gathered i (m.taking accepted p), m.taking accepted p)
    unfold SimplePart.collect taking
    rw [take?_gathered hplural]
    by_cases hnew : m.IsNew accepted p
    · have hopen : ¬ (m.gathered i accepted).any (·.finished) = true :=
        fun hfinished => not_isNew_of_finished hdistinct hfinished p hnew
      obtain ⟨c, hc⟩ := Option.isSome_iff_exists.mp (m.isSome_gathered_append i accepted p)
      rw [if_neg hopen, if_pos hnew, if_pos hnew, hc]
    · rw [if_neg hnew, if_neg hnew]
      exact ite_self _

theorem mem_taken {v : String} :
    v ∈ (ps.foldl m.taking []).map Phrase.text ↔ v ∈ m.phrases ∧ v ∈ ps.map Phrase.text := by
  induction ps using List.reverseRecOn with
  | nil => simp
  | append_singleton ps p ih =>
    rw [List.foldl_append, List.map_append, List.mem_append, and_or_left, ← ih]
    show v ∈ (m.taking (ps.foldl m.taking []) p).map Phrase.text ↔ _
    generalize ps.foldl m.taking [] = accepted
    unfold taking
    split
    · next hnew =>
      have hp : v = p.text → v ∈ m.phrases := fun h => h ▸ hnew.1
      simpa using or_congr_right (iff_and_self.mpr hp)
    · next hnew =>
      have hp : v ∈ m.phrases ∧ v = p.text → v ∈ accepted.map Phrase.text := by
        rintro ⟨hmem, rfl⟩
        exact not_not.mp fun hnot => hnew ⟨hmem, hnot⟩
      simpa using fun hmem hv => List.mem_map.mp (hp ⟨hmem, hv⟩)

/-- What the capture of the phrases `accepted` says about them. -/
theorem gathered_eq_some {c : Capture} (hc : m.gathered i accepted = some c) :
    c.part = i ∧ c.values = accepted.map Phrase.text ∧
      accepted.head?.map (·.span.start) = some c.span.start ∧
      accepted.getLast?.map (·.span.stop) = some c.span.stop := by
  cases accepted with
  | nil => cases hc
  | cons first rest =>
    cases hc
    exact ⟨rfl, rfl, rfl, by rw [List.getLast?_eq_some_getLast (List.cons_ne_nil _ _), Option.map_some]⟩

theorem finished_congr {accepted' : List Phrase} (h : m.Distinct accepted) (h' : m.Distinct accepted')
    (hsame : ∀ v, v ∈ accepted'.map Phrase.text ↔ v ∈ accepted.map Phrase.text) :
    (m.gathered i accepted').map (·.finished) = (m.gathered i accepted).map (·.finished) := by
  have hlength : accepted'.length = accepted.length := by
    simpa using ((List.perm_ext_iff_of_nodup h'.nodup h.nodup).mpr hsame).length_eq
  cases accepted with
  | nil =>
    rw [List.length_eq_zero_iff.mp hlength]
  | cons first rest =>
    cases accepted' with
    | nil => cases hlength
    | cons first' rest' =>
      unfold gathered
      rw [Option.map_some, Option.map_some, hlength]

/-- **Modifiers are a set.**  A modifiers part that is not singular is offered phrases one after the other, until it is
finished.  Whatever it was offered before, it takes a phrase just if that is a candidate and was not taken before; so
what it took are the candidates among the phrases offered.  Its capture holds what it took, in order and each once, and
reaches from the first to the last of it.  It is finished just if every candidate was taken and none is declared twice.
In another order the same set is taken, and the part is finished or not as before. -/
theorem collected_set (m : Modifiers) (hplural : m.singular = false) (i : Nat) (ps : List Phrase) :
    let part := SimplePart.modifiers m
    let (capture?, accepted) := part.collected i ps
    -- what is taken
    (∀ p, (part.take? i p capture?).isSome = true ↔ p.text ∈ m.phrases ∧ p.text ∉ accepted.map Phrase.text) ∧
      (∀ p, (part.collected i (ps ++ [p])).2 =
        if p.text ∈ m.phrases ∧ p.text ∉ accepted.map Phrase.text then accepted ++ [p] else accepted) ∧
      (∀ v, v ∈ accepted.map Phrase.text ↔ v ∈ m.phrases ∧ v ∈ ps.map Phrase.text) ∧
      -- what is recorded
      (capture? = none ↔ accepted = []) ∧
      (∀ c, capture? = some c → c.part = i ∧ c.values = accepted.map Phrase.text ∧ c.values.Nodup ∧
        accepted.head?.map (·.span.start) = some c.span.start ∧
        accepted.getLast?.map (·.span.stop) = some c.span.stop ∧
        (c.finished = true ↔ (∀ v ∈ m.phrases, v ∈ c.values) ∧ m.phrases.Nodup)) ∧
      -- in another order
      ∀ qs, ps.Perm qs → (∀ v, v ∈ (part.collected i qs).2.map Phrase.text ↔ v ∈ accepted.map Phrase.text) ∧
        (part.collected i qs).1.map (·.finished) = capture?.map (·.finished) := by
  simp only [collected_eq hplural]
  have hdistinct := m.distinct_taken ps
  refine ⟨fun p => isSome_take?_gathered hplural, fun p => ?more, fun v => mem_taken, gathered_eq_none, fun c hc => ?recorded,
    fun qs hperm => ?order⟩
  case more =>
    rw [List.foldl_append]
    rfl
  case recorded =>
    obtain ⟨hpart, hvalues, hstart, hstop⟩ := gathered_eq_some hc
    rw [hvalues]
    exact ⟨hpart, rfl, hdistinct.nodup, hstart, hstop, finished_gathered hdistinct hc⟩
  case order =>
    have hsame (v : String) : v ∈ (qs.foldl m.taking []).map Phrase.text ↔ v ∈ (ps.foldl m.taking []).map Phrase.text := by
      rw [mem_taken, mem_taken, (hperm.map Phrase.text).mem_iff]
    exact ⟨hsame, finished_congr hdistinct (m.distinct_taken qs) hsame⟩

end Modifiers

namespace Signs

/-- A plus and a minus, each at most once. -/
def signs : Modifiers := { phrases := ["+", "-"] }

/-- A plus that is declared twice. -/
def repeated : Modifiers := { phrases := ["+", "+"] }

def plus : Phrase := .single .chars .start '+'

def minus : Phrase := .single .chars (Cursor.start.advance '+') '-'

def five : Phrase := .single .number (Cursor.start.advanceOver ['+', '-']) '5'

/-- The number and the second plus are left out, and the part is finished with the second sign, whichever it is. -/
theorem collected_signs :
    let part := SimplePart.modifiers signs
    (part.collected 0 [plus, plus, five, minus]).2 = [plus, minus] ∧
      (part.collected 0 [plus, plus, five, minus]).1.map (·.finished) = some true ∧
      (part.collected 0 [minus, five, plus, plus]).1.map (·.finished) = some true := by
  intro part
  obtain ⟨-, -, -, -, hrecorded, horder⟩ := signs.collected_set rfl 0 [plus, plus, five, minus]
  have hfinished : (part.collected 0 [plus, plus, five, minus]).1.map (·.finished) = some true :=
    congrArg some ((hrecorded _ rfl).2.2.2.2.2.mpr ⟨by decide, by decide⟩)
  exact ⟨by decide, hfinished, (horder [minus, five, plus, plus] (by decide)).2.trans hfinished⟩

/-- With a plus every candidate was taken, but the part waits for a second one that it would refuse. -/
theorem never_finished :
    let part := SimplePart.modifiers repeated
    ∃ c, part.collected 0 [plus] = (some c, [plus]) ∧ (∀ v ∈ repeated.phrases, v ∈ c.values) ∧ c.finished = false ∧
      part.take? 0 plus (some c) = none := by
  refine ⟨_, rfl, by decide, by decide, by decide⟩

end Signs

end PhraseTree
