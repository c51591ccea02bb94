import PhraseTree.Proofs.Text.Quotation
import PhraseTree.Proofs.Tree.Captures

/-!
# Stretches one after the other

What is taken of a text is put on a stack, the latest first.  `Stacked lies l a b` says that the elements of `l` lie in
the text one after the other, the earliest from `a` on and the latest up to `b`, each over at least one character; where
an element lies is told by `lies`.

* `stretch text a b` — the span of the characters from `a` up to `b`;
* `Stacked.replace`, `Stacked.cons`: the latest element is lengthened, or another one follows;
* `SimplePart.resume?_span`: a capture that goes on with a phrase ends with the phrase, unless it gives something back;
* `Alternatives.begin?_lies`, `Alternatives.resume?_lies`: where no path gives anything back, all branches of a fork
  cover the same stretch, be it that the fork begins or goes on;
* `Stacked.spans`: seen as spans, a stack is in order, and its hull goes from its first place to its last.
-/

namespace PhraseTree

/-- The span of the characters from `a` up to `b`. -/
def stretch (text : List Char) (a b : Nat) : Span := ⟨cursorAt .start text a, cursorAt .start text b⟩

/-- **One after the other**, the latest first: from `a` up to `b`. -/
inductive Stacked {α : Type} (lies : α → Nat → Nat → Prop) : List α → Nat → Nat → Prop
  | single {x : α} {a b : Nat} (h : lies x a b) (hlt : a < b) : Stacked lies [x] a b
  | cons {x : α} {l : List α} {a b c d : Nat} (hrest : Stacked lies l a b) (hle : b ≤ c) (h : lies x c d)
      (hlt : c < d) : Stacked lies (x :: l) a d

variable {text : List Char} {a b c d z : Nat}

/-! ### Stacks -/

namespace Stacked

variable {α : Type} {lies lies' : α → Nat → Nat → Prop} {x y : α} {l : List α}

theorem lt (h : Stacked lies l a b) : a < b := by
  induction h with
  | single h hlt => exact hlt
  | cons hrest hle h hlt ih => omega

theorem ne_nil (h : Stacked lies l a b) : l ≠ [] := by
  cases h <;> exact List.cons_ne_nil _ _

theorem head (h : Stacked lies (x :: l) a b) : ∃ c, a ≤ c ∧ c < b ∧ lies x c b := by
  cases h with
  | single h hlt => exact ⟨a, le_rfl, hlt, h⟩
  | cons hrest hle h hlt => exact ⟨_, hrest.lt.le.trans hle, hlt, h⟩

theorem getLast? (h : Stacked lies l a b) (hx : l.getLast? = some x) : ∃ c, c ≤ b ∧ a < c ∧ lies x a c := by
  induction h with
  | single h hlt =>
    cases hx
    exact ⟨_, le_rfl, hlt, h⟩
  | cons hrest hle h hlt ih =>
    obtain ⟨c, hcb, hac, hx⟩ := ih (by rwa [List.getLast?_cons_of_ne_nil hrest.ne_nil] at hx)
    exact ⟨c, by omega, hac, hx⟩

theorem mono (h : Stacked lies l a b) (hlies : ∀ x ∈ l, ∀ a b, lies x a b → lies' x a b) : Stacked lies' l a b := by
  induction h with
  | single h hlt => exact .single (hlies _ List.mem_cons_self _ _ h) hlt
  | cons hrest hle h hlt ih =>
    exact .cons (ih fun y hy => hlies y (List.mem_cons_of_mem _ hy)) hle (hlies _ List.mem_cons_self _ _ h) hlt

/-- **The latest element gives way** to one that starts where it did, and the others lie where they lay. -/
theorem replace (h : Stacked lies (x :: l) a b) (hrest : ∀ y ∈ l, ∀ c d, lies y c d → lies' y c d)
    (hnew : ∀ c, lies x c b → a ≤ c → c < b → lies' y c d ∧ c < d) : Stacked lies' (y :: l) a d := by
  cases h with
  | single h hlt =>
    obtain ⟨hy, hlt'⟩ := hnew _ h le_rfl hlt
    exact .single hy hlt'
  | cons hbelow hle h hlt =>
    obtain ⟨hy, hlt'⟩ := hnew _ h (hbelow.lt.le.trans hle) hlt
    exact .cons (hbelow.mono hrest) hle hy hlt'

end Stacked

/-! ### Captures -/

/-- Where a capture lies. -/
def Capture.Lies (text : List Char) (c : Capture) (a b : Nat) : Prop := c.span = stretch text a b

variable {p : Phrase} {part : SimplePart} {capture capture' : Capture}

/-- **A capture that goes on with a phrase** starts where it did and ends with the phrase, unless it is a text that gives
its closing phrase back. -/
theorem SimplePart.resume?_span (h : part.resume? p capture = some capture') :
    capture'.span.start = capture.span.start ∧
      (capture'.span.stop = p.span.stop ∨
        ∃ t, part = .text t ∧ t.handsBack = true ∧ capture.inText = true ∧ capture'.handBack? = some t.closing) := by
  cases part with
  | keyword | identifier | number => cases h
  | modifiers m =>
    obtain ⟨-, -, rfl⟩ := Modifiers.resume?_cases h
    exact ⟨rfl, Or.inl rfl⟩
  | text t =>
    obtain ⟨hin, ⟨-, rfl⟩ | ⟨-, -, rfl⟩ | ⟨-, hgives, rfl⟩⟩ := TextPart.resume?_cases h
    · exact ⟨rfl, Or.inl rfl⟩
    · exact ⟨rfl, Or.inl rfl⟩
    · exact ⟨rfl, Or.inr ⟨t, rfl, hgives, hin, rfl⟩⟩

theorem SimplePart.begin?_lies {i : Nat} (h : part.begin? i p = some capture) (hp : p.span = stretch text a b) :
    capture.Lies text a b := (begin?_spec h).2.2.1.trans hp

theorem Capture.Lies.upTo (h : capture.Lies text a z) (hp : p.span = stretch text b d)
    (hstart : capture'.span.start = capture.span.start) (hstop : capture'.span.stop = p.span.stop) :
    capture'.Lies text a d := by
  have hspan : capture'.span = ⟨capture'.span.start, capture'.span.stop⟩ := rfl
  rw [Lies, hspan, hstart, hstop, h, hp]
  rfl

/-! ### Forks -/

/-- Where a fork lies: all its branches cover the same stretch. -/
def Fork.Lies (text : List Char) (f : Fork) (a b : Nat) : Prop :=
  ∀ branch ∈ f.branches, Stacked (Capture.Lies text) branch.captures a b

/-- A branch whose path gives nothing back ends with the phrase that it takes. -/
theorem Path.Progress.stacked {path : Path} {captures : List Capture} (h : path.Progress captures)
    (ht : path.take? p captures.head? = some capture) (hkeeps : ¬ path.HandsBack)
    (hlies : Stacked (Capture.Lies text) captures a z) (hp : p.span = stretch text b d) (hle : z ≤ b) (hlt : b < d) :
    Stacked (Capture.Lies text) (Branch.record captures capture) a d := by
  obtain ⟨last, rest, part, rfl, hat, hcases⟩ := h.take?_cases ht
  rcases hcases with ⟨hrec, -, -, hresume⟩ | ⟨hrec, -, -, -, hbegin⟩
  · obtain ⟨hstart, hstop | ⟨t, rfl, hgives, -⟩⟩ := SimplePart.resume?_span hresume
    · rw [hrec]
      exact hlies.replace (fun _ _ _ _ hlies => hlies) fun c hc _ hcz => ⟨hc.upTo hp hstart hstop, by omega⟩
    · exact absurd ⟨t, List.mem_of_getElem? hat, hgives⟩ hkeeps
  · rw [hrec]
    exact .cons hlies hle (SimplePart.begin?_lies hbegin hp) hlt

theorem Capture.stop_of_toReread? {phrase : String} {start : Cursor} (h : capture.toReread? = some (phrase, start)) :
    start = capture.span.stop := by
  obtain ⟨_, -, heq⟩ := Option.map_eq_some_iff.mp h
  exact (congrArg Prod.snd heq).symm

theorem Fork.Lies.reread {f : Fork} {phrase : String} {start : Cursor} (h : f.Lies text a b)
    (hback : f.toReread? = some (phrase, start)) : start = cursorAt .start text b := by
  obtain ⟨branch, hbranch, hback⟩ := List.exists_of_findSome?_eq_some hback
  obtain ⟨last, hlast, hback⟩ := Option.bind_eq_some_iff.mp hback
  obtain ⟨earlier, hcaptures⟩ := List.head?_eq_some_iff.mp hlast
  have hstack := h branch hbranch
  rw [hcaptures] at hstack
  obtain ⟨c, -, -, hlies⟩ := hstack.head
  rw [Capture.stop_of_toReread? hback, hlies]
  rfl

/-- Leaving a text moves no capture of a branch. -/
theorem Branch.settled_stacked {branch : Branch} (h : Stacked (Capture.Lies text) branch.captures a b) :
    Stacked (Capture.Lies text) branch.settled.captures a b := by
  unfold Branch.settled
  split
  · exact h
  · next last earlier hcaptures =>
    rw [hcaptures] at h
    exact h.replace (fun _ _ _ _ hlies => hlies) fun c hlies _ hlt => ⟨hlies, hlt⟩

namespace Alternatives

variable {alternatives : Alternatives} {i : Nat} {f f' : Fork}

/-- **A new fork covers the phrase it begins with.** -/
theorem begin?_lies (h : alternatives.begin? i p = some f) (hp : p.span = stretch text b d) (hlt : b < d) :
    f.Lies text b d := by
  intro branch hbranch
  obtain ⟨path, capture, -, htake, hcaptures⟩ := (begin?_spec h).2 branch hbranch
  obtain ⟨-, -, part, -, hbegin⟩ := Path.begin?_spec htake List.drop_zero
  rw [hcaptures]
  exact .single (SimplePart.begin?_lies hbegin hp) hlt

/-- **A fork that goes on ends with the phrase**, where no path gives anything back. -/
theorem resume?_lies (hf : alternatives.Holds f) (h : alternatives.resume? i p f = some f')
    (hkeeps : ∀ path ∈ alternatives.paths, ¬ path.HandsBack) (hlies : f.Lies text a z)
    (hp : p.span = stretch text b d) (hle : z ≤ b) (hlt : b < d) : f'.Lies text a d := by
  intro branch' hbranch'
  obtain ⟨branch, hbranch, htaken⟩ := (resume?_spec h).2 branch' hbranch'
  obtain ⟨path, capture, hpath, htake, rfl⟩ := Branch.take?_eq_some htaken
  obtain ⟨path', hpath', hprogress⟩ := hf.progress branch hbranch
  cases hpath.symm.trans hpath'
  exact hprogress.stacked htake (hkeeps path (List.mem_of_getElem? hpath)) (hlies branch hbranch) hp hle hlt

end Alternatives

/-! ### Stacks as spans -/

theorem Cursor.le_trans {c d e : Cursor} (h : c ≤ d) (h' : d ≤ e) : c ≤ e :=
  (le_iff_rank c e).mpr (((le_iff_rank c d).mp h).trans ((le_iff_rank d e).mp h'))

namespace Span

/-- **Stretches in the order of the text**: none is empty, and each ends before any later one starts or where it
starts. -/
structure InOrder (spans : List Span) : Prop where
  nonempty : ∀ s ∈ spans, s.start ≤ s.stop ∧ s.start ≠ s.stop
  apart : spans.Pairwise fun s s' => s.stop ≤ s'.start

/-- The smallest span that holds all of them, if there are any. -/
def hull? : List Span → Option Span
  | [] => none
  | s :: rest => some (rest.foldl hull s)

/-- The one lies inside the other. -/
def Within (s whole : Span) : Prop := whole.start ≤ s.start ∧ s.stop ≤ whole.stop

end Span

theorem Span.Within.trans {s s' whole : Span} (h : s.Within s') (h' : s'.Within whole) : s.Within whole :=
  ⟨Cursor.le_trans h'.1 h.1, Cursor.le_trans h.2 h'.2⟩

section Stretches

variable (hlen : text.length < 4294967295)

include hlen

theorem stretch_le (hb : b ≤ text.length) (hab : a ≤ b) : cursorAt .start text a ≤ cursorAt .start text b :=
  (cursorAt_le_iff hlen (hab.trans hb) hb).mpr hab

theorem stretch_nonempty (hb : b ≤ text.length) (hlt : a < b) :
    (stretch text a b).start ≤ (stretch text a b).stop ∧ (stretch text a b).start ≠ (stretch text a b).stop :=
  ⟨stretch_le hlen hb hlt.le, fun he => hlt.ne (cursorAt_inj hlen (hlt.le.trans hb) hb he)⟩

theorem stretch_within (hb : b ≤ text.length) (hac : a ≤ c) (hcd : c ≤ d) (hdb : d ≤ b) :
    (stretch text c d).Within (stretch text a b) :=
  ⟨stretch_le hlen ((hcd.trans hdb).trans hb) hac, stretch_le hlen hb hdb⟩

theorem stretch_hull (hac : a ≤ c) (hbd : b ≤ d) (hcd : c ≤ d) (hd : d ≤ text.length) :
    (stretch text a b).hull (stretch text c d) = stretch text a d := by
  have hstart : min (cursorAt .start text a) (cursorAt .start text c) = cursorAt .start text a :=
    if_pos (stretch_le hlen (hcd.trans hd) hac)
  have hstop : max (cursorAt .start text b) (cursorAt .start text d) = cursorAt .start text d :=
    if_pos (stretch_le hlen hd hbd)
  simp only [Span.hull, stretch, hstart, hstop]

end Stretches

/-- **A stack, seen as spans**, is in order, and its hull goes from its first place to its last. -/
theorem Stacked.spans {α : Type} {lies : α → Nat → Nat → Prop} {l : List α} (h : Stacked lies l a b)
    (extent? : α → Option Span) (hlen : text.length < 4294967295) (hb : b ≤ text.length)
    (hextent : ∀ x ∈ l, ∀ c d, d ≤ text.length → lies x c d → extent? x = some (stretch text c d)) :
    ∃ spans, l.reverse.map extent? = spans.map some ∧ Span.InOrder spans ∧
      Span.hull? spans = some (stretch text a b) ∧ ∀ s ∈ spans, s.Within (stretch text a b) := by
  induction h with
  | @single x a b h hlt =>
    refine ⟨[stretch text a b], ?_, ⟨?_, List.pairwise_singleton _ _⟩, rfl, ?_⟩
    · simp [hextent x (by simp) a b hb h]
    · simpa using stretch_nonempty hlen hb hlt
    · simpa using stretch_within hlen hb le_rfl hlt.le le_rfl
  | @cons x l a b c d hrest hbc h hlt ih =>
    have hab := hrest.lt
    have hx := hextent x List.mem_cons_self c d hb h
    obtain ⟨spans, hmap, horder, hhull, hwithin⟩ := ih (by omega) fun y hy => hextent y (List.mem_cons_of_mem _ hy)
    refine ⟨spans ++ [stretch text c d], ?_, ⟨?_, ?_⟩, ?_, ?_⟩
    · simp [List.map_append, ← hmap, hx]
    · intro s hs
      rcases List.mem_append.mp hs with hs | hs
      · exact horder.nonempty s hs
      · obtain rfl := List.mem_singleton.mp hs
        exact stretch_nonempty hlen hb hlt
    · -- what lies in the rest of the stack ends where the rest does, and so before the latest starts
      refine List.pairwise_append.mpr ⟨horder.apart, List.pairwise_singleton _ _, fun s hs s' hs' => ?_⟩
      obtain rfl := List.mem_singleton.mp hs'
      exact Cursor.le_trans (hwithin s hs).2 (stretch_le hlen (hlt.le.trans hb) hbc)
    · cases spans with
      | nil => cases hhull
      | cons s spans =>
        have hfold : spans.foldl Span.hull s = stretch text a b := Option.some.inj hhull
        rw [List.cons_append, Span.hull?, List.foldl_append, hfold]
        exact congrArg some (stretch_hull hlen (by omega) (by omega) hlt.le hb)
    · intro s hs
      rcases List.mem_append.mp hs with hs | hs
      · exact (hwithin s hs).trans (stretch_within hlen hb le_rfl hab.le (by omega))
      · obtain rfl := List.mem_singleton.mp hs
        exact stretch_within hlen hb (by omega) hlt.le le_rfl

theorem Fork.Lies.span? {f : Fork} {alternatives : Alternatives} (h : f.Lies text a b) (hf : alternatives.Holds f)
    (hlen : text.length < 4294967295) (hb : b ≤ text.length) : f.span? = some (stretch text a b) := by
  obtain ⟨branch, rest, hbranches⟩ := List.exists_cons_of_ne_nil hf.nonempty
  have hstack := h branch (by rw [hbranches]; exact List.mem_cons_self)
  obtain ⟨last, earlier, hcaptures⟩ := List.exists_cons_of_ne_nil hstack.ne_nil
  obtain ⟨first, hfirst⟩ := Option.isSome_iff_exists.mp (List.getLast?_isSome.mpr hstack.ne_nil)
  obtain ⟨c, hcb, hac, hfirstLies⟩ := hstack.getLast? hfirst
  rw [hcaptures] at hstack hfirst
  obtain ⟨d, had, hdb, hlastLies⟩ := hstack.head
  have hhull : first.span.hull last.span = stretch text a b := by
    rw [hfirstLies, hlastLies]
    exact stretch_hull hlen had hcb hdb.le hb
  simp only [Fork.span?, hbranches, List.head?_cons, hcaptures, hfirst, Option.bind_some, Option.bind_eq_bind,
    Option.pure_def, hhull]

end PhraseTree
