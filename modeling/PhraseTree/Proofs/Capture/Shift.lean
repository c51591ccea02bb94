import PhraseTree.Proofs.Capture.Shape
import Mathlib.Data.List.Forall2

/-!
# Captures of a text that stands elsewhere

A `Shift` gives two places, `here` and `there`.  What is read from `here` on may as well be read from `there` on: then
every cursor is as far behind `there` as it was behind `here` (`Shift.Carries`), and nothing else becomes different.
This file says so for what simple parts, paths and alternatives take.

A capture may have begun before `here` and go on behind it.  Of the captures made before, `old` tells which.

* `Capture.Later σ old c d` — `c` and `d` are the same capture, made from `here` and from `there`, but for its span;
* `Capture.Shifted σ old c d` — so they are, or both are one and the same old capture;
* `Branch.Later`, `Branch.Shifted`, `Fork.Along` — the same for branches and forks.

`SimplePart.begin?_later`, `SimplePart.resume?_later`, `Path.take?_later`, `Alternatives.begin?_later` and
`Alternatives.resume?_later`: what takes a phrase read from `here` takes it when it is read from `there`, and the
captures correspond.  So no decision depends on where a phrase stands.
-/

namespace PhraseTree

/-! ### Related answers -/

section Related

variable {α β γ δ : Type} {R : α → β → Prop} {S : γ → δ → Prop} {o : Option α} {o' : Option β}

theorem rel_map {f : α → γ} {f' : β → δ} (h : Option.Rel R o o') (hf : ∀ a b, R a b → S (f a) (f' b)) :
    Option.Rel S (o.map f) (o'.map f') := by
  cases h with
  | none => exact .none
  | some h => exact .some (hf _ _ h)

theorem map_eq_of_rel {f : α → γ} {f' : β → γ} (h : Option.Rel R o o') (hf : ∀ a b, R a b → f' b = f a) :
    o'.map f' = o.map f := by
  cases h with
  | none => rfl
  | some h => exact congrArg some (hf _ _ h)

theorem any_eq_of_rel {f : α → Bool} {f' : β → Bool} (h : Option.Rel R o o') (hf : ∀ a b, R a b → f' b = f a) :
    o'.any f' = o.any f := by
  cases h with
  | none => rfl
  | some h => exact hf _ _ h

theorem rel_head? {l : List α} {l' : List β} (h : List.Forall₂ R l l') : Option.Rel R l.head? l'.head? := by
  cases h with
  | nil => exact .none
  | cons h => exact .some h

end Related

/-! ### Places -/

/-- Two places from which the same text is read. -/
structure Shift where
  here : Cursor
  there : Cursor

namespace Shift

/-- One text leads from `here` to the first cursor and from `there` to the second. -/
def Carries (σ : Shift) (c d : Cursor) : Prop :=
  ∃ text : List Char, c = σ.here.advanceOver text ∧ d = σ.there.advanceOver text

/-- So it does, and the text holds some character. -/
def CarriesOn (σ : Shift) (c d : Cursor) : Prop :=
  ∃ text : List Char, text ≠ [] ∧ c = σ.here.advanceOver text ∧ d = σ.there.advanceOver text

/-- The same phrase is to be read again, from elsewhere. -/
def Rereads (σ : Shift) (x y : String × Cursor) : Prop := y.1 = x.1 ∧ σ.Carries x.2 y.2

variable {σ : Shift} {c d : Cursor}

theorem carries_start (σ : Shift) : σ.Carries σ.here σ.there := ⟨[], rfl, rfl⟩

theorem Carries.advanceOver (h : σ.Carries c d) (text : List Char) :
    σ.Carries (c.advanceOver text) (d.advanceOver text) := by
  obtain ⟨before, rfl, rfl⟩ := h
  exact ⟨before ++ text, by simp, by simp⟩

theorem Carries.advance (h : σ.Carries c d) (ch : Char) : σ.CarriesOn (c.advance ch) (d.advance ch) := by
  obtain ⟨before, rfl, rfl⟩ := h
  exact ⟨before ++ [ch], by simp, by simp, by simp⟩

theorem CarriesOn.carries (h : σ.CarriesOn c d) : σ.Carries c d := by
  obtain ⟨text, -, hc, hd⟩ := h
  exact ⟨text, hc, hd⟩

end Shift

/-- Both ends of the second span are where the shift carries those of the first. -/
structure Span.Shifted (σ : Shift) (a b : Span) : Prop where
  start : σ.Carries a.start b.start
  stop : σ.Carries a.stop b.stop

/-- The same phrase, read elsewhere. -/
structure Phrase.Shifted (σ : Shift) (p q : Phrase) : Prop where
  text : q.text = p.text
  kind : q.kind = p.kind
  start : σ.Carries p.span.start q.span.start
  stop : σ.CarriesOn p.span.stop q.span.stop

namespace Phrase.Shifted

variable {σ : Shift} {p q : Phrase} {c d : Cursor}

theorem eq (h : p.Shifted σ q) : q = { p with span := q.span } := by
  obtain ⟨htext, hkind, -, -⟩ := h
  cases q
  simp_all

theorem span (h : p.Shifted σ q) : p.span.Shifted σ q.span := ⟨h.start, h.stop.carries⟩

theorem single (h : σ.Carries c d) (kind : PhraseKind) (ch : Char) :
    (Phrase.single kind c ch).Shifted σ (Phrase.single kind d ch) :=
  ⟨rfl, rfl, h, h.advance ch⟩

theorem push (h : p.Shifted σ q) (ch : Char) : (p.push ch).Shifted σ (q.push ch) := by
  refine ⟨?_, h.kind, h.start, h.stop.carries.advance ch⟩
  show q.text.push ch = p.text.push ch
  rw [h.text]

end Phrase.Shifted

/-! ### Captures -/

/-- A capture that begins where an old one did and ends behind `here`, as one does that went on and is no open text. -/
structure Capture.GoesOn (σ : Shift) (old : Capture → Prop) (c d : Capture) : Prop where
  inText : c.inText = false
  start : d.span.start = c.span.start ∧ ∃ x, old x ∧ c.span.start = x.span.start
  stop : σ.CarriesOn c.span.stop d.span.stop

/-- **The same capture, made elsewhere**: all its phrases are read elsewhere, or the latest of them if it goes on. -/
structure Capture.Later (σ : Shift) (old : Capture → Prop) (c d : Capture) : Prop where
  same : d = { c with span := d.span }
  start : σ.Carries c.span.start d.span.start ∨ c.GoesOn σ old d
  stop : σ.Carries c.span.stop d.span.stop

/-- The same capture, made elsewhere or made before. -/
inductive Capture.Shifted (σ : Shift) (old : Capture → Prop) : Capture → Capture → Prop
  | kept {c : Capture} (hold : old c) (hin : c.inText = false) : Shifted σ old c c
  | later {c d : Capture} (h : c.Later σ old d) : Shifted σ old c d

namespace Capture

variable {σ : Shift} {old old' : Capture → Prop} {p q : Phrase} {c d : Capture} {values : List String}

theorem Later.mono (h : c.Later σ old d) (hold : ∀ x, old x → old' x) : c.Later σ old' d := by
  refine ⟨h.same, ?_, h.stop⟩
  rcases h.start with hstart | ⟨hin, ⟨heq, x, hx, hfrom⟩, hstop⟩
  · exact Or.inl hstart
  · exact Or.inr ⟨hin, ⟨heq, x, hold x hx, hfrom⟩, hstop⟩

/-- What is changed alike in both captures, spans and open texts apart, makes no difference. -/
theorem Later.congr {c' d' : Capture} (h : c.Later σ old d) (hsame : d' = { c' with span := d'.span })
    (hin : c'.inText = c.inText) (hc : c'.span = c.span) (hd : d'.span = d.span) : c'.Later σ old d' := by
  refine ⟨hsame, ?_, by rw [hc, hd]; exact h.stop⟩
  rcases h.start with hstart | hon
  · rw [hc, hd]
    exact Or.inl hstart
  · exact Or.inr ⟨hin.trans hon.inText, by rw [hc, hd]; exact hon.start, by rw [hc, hd]; exact hon.stop⟩

theorem Later.settled (h : c.Later σ old d) : c.settled.Later σ old d.settled :=
  h.congr (congrArg Capture.settled h.same) rfl rfl rfl

/-- What is to be read again is the same, and it is read elsewhere. -/
theorem Later.toReread? (h : c.Later σ old d) : Option.Rel σ.Rereads c.toReread? d.toReread? := by
  have hback : d.handBack? = c.handBack? := by rw [h.same]
  unfold Capture.toReread?
  rw [hback]
  cases c.handBack? with
  | none => exact .none
  | some phrase => exact .some ⟨rfl, h.stop⟩

theorem Shifted.same (h : c.Shifted σ old d) : d = { c with span := d.span } := by
  cases h with
  | kept => rfl
  | later h => exact h.same

theorem Shifted.part_eq (h : c.Shifted σ old d) : d.part = c.part := by rw [h.same]

/-- An open text begins behind `here`. -/
theorem Shifted.start_of_inText (h : c.Shifted σ old d) (hin : c.inText = true) :
    σ.Carries c.span.start d.span.start := by
  cases h with
  | kept _ hclosed => exact absurd (hin.symm.trans hclosed) (by simp)
  | later h =>
    rcases h.start with hstart | hon
    · exact hstart
    · exact absurd (hin.symm.trans hon.inText) (by simp)

/-- A capture that goes on up to the end of a phrase. -/
theorem Shifted.upTo (h : c.Shifted σ old d) (hp : p.Shifted σ q) (values : List String) :
    (c.upTo p values).Later σ old (d.upTo q values) := by
  refine ⟨by unfold Capture.upTo; rw [h.same], ?_, hp.stop.carries⟩
  cases h with
  | kept hold hin => exact Or.inr ⟨hin, ⟨rfl, c, hold, rfl⟩, hp.stop⟩
  | later h => exact h.start.imp_right fun hon => ⟨hon.inText, hon.start, hp.stop⟩

end Capture

/-! ### Simple parts -/

section Parts

variable {σ : Shift} {old : Capture → Prop} {p q : Phrase} {c d : Capture} {i : Nat}

/-- A capture that begins has the span of its phrase; the span has no other part in it. -/
theorem SimplePart.begin?_span (part : SimplePart) (i : Nat) (p : Phrase) (span : Span) :
    part.begin? i { p with span } = (part.begin? i p).map fun c => { c with span } := by
  cases part <;> simp only [begin?, Modifiers.begin?, TextPart.begin?] <;> split <;> rfl

theorem SimplePart.begin?_later (hp : p.Shifted σ q) (part : SimplePart) (i : Nat) :
    Option.Rel (Capture.Later σ old) (part.begin? i p) (part.begin? i q) := by
  rw [hp.eq, part.begin?_span i p q.span]
  cases hbegin : part.begin? i p with
  | none => exact .none
  | some c =>
    obtain ⟨-, -, hspan, -⟩ := SimplePart.begin?_spec hbegin
    refine .some ⟨rfl, Or.inl ?_, ?_⟩
    · rw [hspan]
      exact hp.start
    · rw [hspan]
      exact hp.stop.carries

/-- An open text goes on.  Where it gives its closing phrase back, its end is counted from its start, which the shift
carries. -/
theorem TextPart.resume?_later (h : c.Shifted σ old d) (hp : p.Shifted σ q) (t : TextPart) :
    Option.Rel (Capture.Later σ old) (t.resume? p c) (t.resume? q d) := by
  have hin : d.inText = c.inText := by rw [h.same]
  have hopening : d.opening = c.opening := by rw [h.same]
  have hvalue : d.value ++ q.text = c.value ++ p.text := by
    rw [hp.text, show d.value = c.value by rw [h.same]; rfl]
  unfold TextPart.resume?
  rw [hin]
  split
  · next hopen =>
    have hstart := h.start_of_inText hopen
    dsimp only
    rw [hvalue, hopening]
    split
    · split
      · exact .some ⟨by rw [h.same], Or.inl hstart, hstart.advanceOver _⟩
      · exact .some ⟨by unfold Capture.upTo; rw [h.same], Or.inl hstart, hp.stop.carries⟩
    · exact .some (h.upTo hp _)
  · exact .none

theorem Modifiers.resume?_later (h : c.Shifted σ old d) (hp : p.Shifted σ q) (m : Modifiers) :
    Option.Rel (Capture.Later σ old) (m.resume? p c) (m.resume? q d) := by
  have hvalues : d.values = c.values := by rw [h.same]
  unfold Modifiers.resume?
  rw [hp.text, hvalues]
  split
  · exact .some ((h.upTo hp (c.values ++ [p.text])).congr (by unfold Capture.upTo; rw [h.same]) rfl rfl rfl)
  · exact .none

theorem SimplePart.resume?_later (h : c.Shifted σ old d) (hp : p.Shifted σ q) (part : SimplePart) :
    Option.Rel (Capture.Later σ old) (part.resume? p c) (part.resume? q d) := by
  cases part with
  | keyword | identifier | number => exact .none
  | modifiers m => exact Modifiers.resume?_later h hp m
  | text t => exact TextPart.resume?_later h hp t

/-! ### Paths -/

theorem Path.begin?_later (hp : p.Shifted σ q) (path : Path) (i : Nat) :
    Option.Rel (Capture.Later σ old) (Path.begin? p i path) (Path.begin? q i path) := by
  induction path generalizing i with
  | nil => exact .none
  | cons part rest ih =>
    have hpart : Option.Rel (Capture.Later σ old) _ _ := SimplePart.begin?_later hp part i
    unfold Path.begin?
    generalize part.begin? i p = taken, part.begin? i q = taken' at hpart ⊢
    cases hpart with
    | some h => exact .some h
    | none =>
      dsimp only
      split
      · exact ih (i + 1)
      · exact .none

theorem Path.take?_later {c? d? : Option Capture} (hp : p.Shifted σ q) (h : Option.Rel (Capture.Shifted σ old) c? d?)
    (path : Path) : Option.Rel (Capture.Later σ old) (path.take? p c?) (path.take? q d?) := by
  cases h with
  | none => exact Path.begin?_later hp path 0
  | @some c d h =>
    have hfinished : d.finished = c.finished := by rw [h.same]
    have honward : Option.Rel (Capture.Later σ old) _ _ :=
      Path.begin?_later hp (path.drop (path.next c.part)) (path.next c.part)
    simp only [Path.take?, h.part_eq, hfinished]
    split
    · exact honward
    · cases path[c.part]? with
      | none => exact .none
      | some part =>
        have hresume := SimplePart.resume?_later h hp part
        dsimp only
        generalize part.resume? p c = taken, part.resume? q d = taken' at hresume ⊢
        cases hresume with
        | some h => exact .some h
        | none => exact honward

end Parts

/-! ### Branches -/

/-- The same branch, whose captures were made elsewhere or before. -/
inductive Branch.Shifted (σ : Shift) (old : Capture → Prop) : Branch → Branch → Prop
  | mk {path : Nat} {cs ds : List Capture} (h : List.Forall₂ (Capture.Shifted σ old) cs ds) :
      Shifted σ old ⟨path, cs⟩ ⟨path, ds⟩

/-- The same branch, whose latest capture was made elsewhere. -/
inductive Branch.Later (σ : Shift) (old : Capture → Prop) : Branch → Branch → Prop
  | mk {path : Nat} {c d : Capture} {cs ds : List Capture} (hlast : c.Later σ old d)
      (h : List.Forall₂ (Capture.Shifted σ old) cs ds) : Later σ old ⟨path, c :: cs⟩ ⟨path, d :: ds⟩

namespace Branch

variable {σ : Shift} {old old' : Capture → Prop} {p q : Phrase} {b b' : Branch}

theorem Later.shifted (h : b.Later σ old b') : b.Shifted σ old b' := by
  obtain ⟨hlast, h⟩ := h
  exact ⟨.cons (.later hlast) h⟩

theorem Shifted.path_eq (h : b.Shifted σ old b') : b'.path = b.path := by
  cases h
  rfl

theorem Shifted.last? (h : b.Shifted σ old b') : Option.Rel (Capture.Shifted σ old) b.last? b'.last? := by
  obtain ⟨h⟩ := h
  exact rel_head? h

theorem Shifted.isSatisfied_eq (h : b.Shifted σ old b') (paths : List Path) :
    b'.isSatisfied paths = b.isSatisfied paths := by
  have hpart : b'.last?.map (·.part + 1) = b.last?.map (·.part + 1) :=
    map_eq_of_rel h.last? fun _ _ h => congrArg (· + 1) h.part_eq
  unfold isSatisfied
  rw [h.path_eq, hpart]

theorem Shifted.inText_eq (h : b.Shifted σ old b') : b'.inText = b.inText :=
  any_eq_of_rel h.last? fun _ _ h => by rw [h.same]

theorem Later.settled (h : b.Later σ old b') : b.settled.Later σ old b'.settled := by
  obtain ⟨hlast, h⟩ := h
  exact ⟨hlast.settled, h⟩

theorem Later.toReread? (h : b.Later σ old b') : Option.Rel σ.Rereads b.toReread? b'.toReread? := by
  obtain ⟨hlast, -⟩ := h
  exact hlast.toReread?

/-- A branch that takes a phrase has its latest capture from there. -/
theorem Shifted.take? (h : b.Shifted σ old b') (hp : p.Shifted σ q) (paths : List Path) :
    Option.Rel (Branch.Later σ old) (b.take? paths p) (b'.take? paths q) := by
  have hlast := h.last?
  obtain @⟨path, cs, ds, h⟩ := h
  unfold Branch.take?
  dsimp only
  cases paths[path]? with
  | none => exact .none
  | some parts =>
    refine rel_map (Path.take?_later hp hlast parts) fun c d hcd => ?_
    cases h with
    | nil => exact ⟨hcd, .nil⟩
    | @cons c₀ d₀ cs ds h₀ h =>
      have hparts : (d₀.part = d.part) = (c₀.part = c.part) := by rw [h₀.part_eq, hcd.same]
      simp only [record, hparts]
      split
      · exact ⟨hcd, h⟩
      · exact ⟨hcd, .cons h₀ h⟩

end Branch

/-! ### Forks -/

/-- Forks whose branches correspond. -/
structure Fork.Along (R : Branch → Branch → Prop) (f f' : Fork) : Prop where
  part : f'.part = f.part
  satisfied : f'.satisfied = f.satisfied
  branches : List.Forall₂ R f.branches f'.branches

section Fork

variable {σ : Shift} {old : Capture → Prop} {p q : Phrase} {f f' : Fork} {i : Nat} {R S : Branch → Branch → Prop}

theorem Fork.Along.mono (h : f.Along R f') (hR : ∀ b b', R b b' → S b b') : f.Along S f' :=
  ⟨h.part, h.satisfied, h.branches.imp hR⟩

theorem Fork.Along.inText_eq (h : f.Along (Branch.Shifted σ old) f') : f'.inText = f.inText := by
  unfold Fork.inText
  have hbranches := h.branches
  generalize f.branches = bs, f'.branches = bs' at hbranches
  induction hbranches with
  | nil => rfl
  | cons hb _ ih => rw [List.any_cons, List.any_cons, hb.inText_eq, ih]

theorem Fork.Along.settled (h : f.Along (Branch.Later σ old) f') : f.settled.Along (Branch.Later σ old) f'.settled where
  part := h.part
  satisfied := h.satisfied
  branches := List.rel_map (fun _ _ hb => hb.settled) h.branches

theorem Fork.Along.toReread? (h : f.Along (Branch.Later σ old) f') : Option.Rel σ.Rereads f.toReread? f'.toReread? := by
  unfold Fork.toReread?
  have hbranches := h.branches
  generalize f.branches = bs, f'.branches = bs' at hbranches
  induction hbranches with
  | nil => exact .none
  | @cons b b' _ _ hb _ ih =>
    have hback := hb.toReread?
    rw [List.findSome?_cons, List.findSome?_cons]
    generalize b.toReread? = back, b'.toReread? = back' at hback ⊢
    cases hback with
    | some h => exact .some h
    | none => exact ih

theorem Fork.of?_later {branches branches' : List Branch} (h : List.Forall₂ (Branch.Later σ old) branches branches')
    (a : Alternatives) (i : Nat) :
    Option.Rel (Fork.Along (Branch.Later σ old)) (Fork.of? a i branches) (Fork.of? a i branches') := by
  have hsatisfied : branches'.any (·.isSatisfied a.paths) = branches.any (·.isSatisfied a.paths) := by
    induction h with
    | nil => rfl
    | cons hb _ ih => rw [List.any_cons, List.any_cons, hb.shifted.isSatisfied_eq, ih]
  unfold Fork.of?
  rw [hsatisfied]
  cases h with
  | nil => exact .none
  | cons hb h => exact .some ⟨rfl, rfl, .cons hb h⟩

theorem Alternatives.begin?_later (hp : p.Shifted σ q) (a : Alternatives) (i : Nat) :
    Option.Rel (Fork.Along (Branch.Later σ old)) (a.begin? i p) (a.begin? i q) := by
  refine Fork.of?_later (List.rel_filterMap (R := Eq) ?_ (List.forall₂_refl _)) a i
  rintro ⟨path, k⟩ _ rfl
  exact rel_map (Path.take?_later hp .none path) fun _ _ h => ⟨h, .nil⟩

theorem Alternatives.resume?_later (h : f.Along (Branch.Shifted σ old) f') (hp : p.Shifted σ q) (a : Alternatives)
    (i : Nat) : Option.Rel (Fork.Along (Branch.Later σ old)) (a.resume? i p f) (a.resume? i q f') :=
  Fork.of?_later (List.rel_filterMap (fun _ _ hb => hb.take? hp a.paths) h.branches) a i

end Fork

end PhraseTree
