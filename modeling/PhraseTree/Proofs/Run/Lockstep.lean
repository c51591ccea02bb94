import PhraseTree.Proofs.Run.Reached

/-!
# Runs in lockstep

Two runs read the same characters, maybe by different grammars with the same character classes, under different settings
or at different places.  `Run.Lockstep g g' A B R` says that `R` is kept by all that reading a character is made of:
lengthening a phrase, placing it, passing over a character, and giving a character to a text.  `R rest a b` relates `a`
and `b` where both have `rest` left to read.

* `Run.Lockstep.step`: a step keeps `R`, and both runs give back the same;
* `Run.Lockstep.readAll`: reading keeps `R`, and both runs come to the end of what they read or neither does.
-/

namespace PhraseTree

namespace Run

/-- The character begins a phrase of that kind, or is taken into the one being read. -/
def Feeds (g : Grammar) (r : Run) (kind : PhraseKind) (ch : Char) : Prop :=
  (r.buffer? = none ∧ g.classes.startingKind ch = some kind) ∨
    ∃ p, r.buffer? = some p ∧ p.kind = kind ∧ g.classes.continues kind ch = true

/-- The phrase being read, if any, cannot take the next character. -/
def Stops (g : Grammar) (r : Run) (rest : List Char) : Prop :=
  ∀ p, r.buffer? = some p → ∀ ch ∈ rest.head?, g.classes.continues p.kind ch = false

section States

variable {g : Grammar} {s : Settings} {r : Run} {kind : PhraseKind} {ch : Char} {text rest : List Char}
  {taken : List Phrase}

theorem Feeds.reads (h : r.Feeds g kind ch) (hin : r.inText = false) (s : Settings) (taken : List Phrase) :
    Reads g s r taken ch (r.push g s kind ch) (r.pushTakes g s kind ch taken) [] := by
  rcases h with ⟨hbuffer, hstarts⟩ | ⟨p, hbuffer, rfl, hcontinues⟩
  · exact .begin hin hbuffer hstarts
  · exact .lengthen hin hbuffer hcontinues

theorem Reached.flush_of_stops (h : Reached g s text r taken rest) (hin : r.inText = false) (hstops : r.Stops g rest) :
    ∃ taken', Reached g s text (r.flush g s) taken' rest := by
  cases hbuffer : r.buffer? with
  | none => exact ⟨taken, by rwa [show r.flush g s = r by simp only [Run.flush, hbuffer]]⟩
  | some p => exact ⟨_, h.flush hin hbuffer (hstops p hbuffer)⟩

end States

/-- **`R` is kept by all that reading a character is made of.** -/
structure Lockstep (g g' : Grammar) (A B : Settings) (R : List Char → Run → Run → Prop) : Prop where
  classes : g'.classes = g.classes
  inText : ∀ {rest a b}, R rest a b → b.inText = a.inText
  kind : ∀ {rest a b}, R rest a b → b.buffer?.map Phrase.kind = a.buffer?.map Phrase.kind
  push : ∀ {ch rest a b kind}, R (ch :: rest) a b → a.inText = false → a.Feeds g kind ch →
    R rest (a.push g A kind ch) (b.push g' B kind ch)
  skip : ∀ {ch rest a b}, R (ch :: rest) a b → a.inText = false → a.buffer? = none →
    g.classes.startingKind ch = none → R rest (a.skip ch) (b.skip ch)
  flush : ∀ {rest a b}, R rest a b → a.inText = false → a.Stops g rest → R rest (a.flush g A) (b.flush g' B)
  readText : ∀ {ch rest a b}, R (ch :: rest) a b → a.inText = true →
    (b.readText g' B ch).2 = (a.readText g A ch).2 ∧
      R ((a.readText g A ch).2 ++ rest) (a.readText g A ch).1 (b.readText g' B ch).1

namespace Lockstep

variable {g g' : Grammar} {A B : Settings} {R : List Char → Run → Run → Prop} {a b : Run} {ch : Char}
  {rest : List Char}

theorem openWith (h : Lockstep g g' A B R) (hab : R (ch :: rest) a b) (hin : a.inText = false)
    (hbuffer : a.buffer? = none) : R rest (a.openWith g A ch) (b.openWith g' B ch) := by
  unfold Run.openWith
  rw [h.classes]
  cases hstarts : g.classes.startingKind ch with
  | some kind => exact h.push hab hin (Or.inl ⟨hbuffer, hstarts⟩)
  | none => exact h.skip hab hin hbuffer hstarts

/-- **A step keeps the relation**, and the same characters come back. -/
theorem step (h : Lockstep g g' A B R) (hab : R (ch :: rest) a b) :
    (b.step g' B ch).2 = (a.step g A ch).2 ∧ R ((a.step g A ch).2 ++ rest) (a.step g A ch).1 (b.step g' B ch).1 := by
  have hkind := h.kind hab
  unfold Run.step
  rw [h.inText hab, h.classes]
  cases hin : a.inText with
  | true => exact h.readText hab hin
  | false =>
    simp only [Bool.false_eq_true, if_false]
    cases hbuffer : a.buffer? with
    | none =>
      rw [hbuffer, Option.map_none, Option.map_eq_none_iff] at hkind
      rw [hkind]
      exact ⟨rfl, h.openWith hab hin hbuffer⟩
    | some p =>
      rw [hbuffer, Option.map_some, Option.map_eq_some_iff] at hkind
      obtain ⟨q, hq, hkind⟩ := hkind
      rw [hq]
      dsimp only
      rw [hkind]
      cases hcontinues : g.classes.continues p.kind ch with
      | true => exact ⟨rfl, h.push hab hin (Or.inr ⟨p, hbuffer, rfl, hcontinues⟩)⟩
      | false =>
        have hflush := h.flush hab hin fun p' hp' c hc => by
          cases hbuffer.symm.trans hp'
          cases hc
          exact hcontinues
        simp only [Bool.false_eq_true, if_false]
        rw [h.inText hflush]
        cases hopen : (a.flush g A).inText with
        | true => exact h.readText hflush hopen
        | false => exact ⟨rfl, h.openWith hflush hopen buffer_flush⟩

/-- **Reading keeps the relation.**  Either both runs come to the end of what they read or neither does. -/
theorem readAll (h : Lockstep g g' A B R) (depth : Nat) (chars rest : List Char) (hab : R (chars ++ rest) a b) :
    Option.Rel (R rest) (Run.readAll g A depth a chars) (Run.readAll g' B depth b chars) := by
  induction depth generalizing a b chars rest with
  | zero =>
    cases chars with
    | nil => exact .some hab
    | cons => exact .none
  | succ depth ih =>
    induction chars generalizing a b with
    | nil => exact .some hab
    | cons ch chars ihchars =>
      obtain ⟨hagain, hstep⟩ := h.step hab
      have hread := ih _ _ hstep
      rw [readAll_cons, readAll_cons, readChar_succ, readChar_succ, hagain]
      generalize Run.readAll g A depth (a.step g A ch).1 _ = a?, Run.readAll g' B depth (b.step g' B ch).1 _ = b?
        at hread ⊢
      cases hread with
      | none => exact .none
      | some hab => exact ihchars hab

end Lockstep

end Run

end PhraseTree
