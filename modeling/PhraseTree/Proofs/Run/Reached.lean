import PhraseTree.Run.Feed
import PhraseTree.Proofs.Run.Placing
import PhraseTree.Proofs.Text.Lexer

/-!
# The states of a run

`Run.Reached g s text r taken rest` says that a run over `text` comes to the state `r`, where `rest` is still to be
read.  `taken` keeps account of the phrases that some instance took and did not give back, the latest first.  A run
places a phrase that is complete, or reads a character; `Run.Reads` has one constructor for each way to do so.  What all
of them keep holds throughout every run.

* `Run.step_reads`, `Run.Reached.readAll`: steps, and reading characters with all they give back, lead from reached
  states to reached states;
* `Run.readAll_mono`, `Run.readAll_inj`: the bound on the nesting does not matter where it is not reached;
* `Grammar.read?_reached`: the result of a text is a reached state with nothing left, to which only the report about
  the end of the text is added;
* `Run.Passes g s text r`: the run over `text` passes through `r`, be it a reached state, one in which a text was just
  closed and nothing was given back yet, or the result;
* `Run.Leads g s r rest r' rest'`: a run that stands at `r` with `rest` left comes to `r'` with `rest'` left;
* `Run.Later g s r rest r'`: a run that stands at `r` with `rest` left passes through `r'` from then on;
* `Run.Reached.buffer_rule`: what holds of every phrase that is being read;
* `Run.Later.rule`, `Run.Passes.rule`: what placing a phrase, leaving a text and reporting keep is kept throughout a
  run; `Run.Passes.tree_rule` is the rule for trees.
-/

namespace PhraseTree

namespace Run

variable (g : Grammar) (s : Settings)

/-- The phrases taken, after `p` was placed. -/
def takes (r : Run) (p : Phrase) (must : Bool) (taken : List Phrase) : List Phrase :=
  if (r.resolve g s p must).2 then p :: taken else taken

/-- The phrases taken, after `ch` went into the phrase being read. -/
def pushTakes (r : Run) (kind : PhraseKind) (ch : Char) (taken : List Phrase) : List Phrase :=
  if kind = .chars then (r.hold kind ch).takes g s (r.grown kind ch) false taken else taken

/-- The phrases taken, after `ch` went into a text; what the text gives back is not taken. -/
def textTakes (r : Run) (ch : Char) (taken : List Phrase) : List Phrase :=
  ((r.past ch).takes g s (.single .chars r.cursor ch) true taken).drop (r.readText g s ch).2.length

/-- **How a run reads a character**, and what is to be read again on its account. -/
inductive Reads (g : Grammar) (s : Settings) : Run → List Phrase → Char → Run → List Phrase → List Char → Prop
  /-- The phrase being read grows. -/
  | lengthen {r : Run} {taken : List Phrase} {ch : Char} {p : Phrase} (hin : r.inText = false)
      (hbuffer : r.buffer? = some p) (hcontinues : g.classes.continues p.kind ch = true) :
      Reads g s r taken ch (r.push g s p.kind ch) (r.pushTakes g s p.kind ch taken) []
  /-- A phrase begins. -/
  | begin {r : Run} {taken : List Phrase} {ch : Char} {kind : PhraseKind} (hin : r.inText = false)
      (hbuffer : r.buffer? = none) (hstarts : g.classes.startingKind ch = some kind) :
      Reads g s r taken ch (r.push g s kind ch) (r.pushTakes g s kind ch taken) []
  /-- The character is in no phrase. -/
  | skip {r : Run} {taken : List Phrase} {ch : Char} (hin : r.inText = false) (hbuffer : r.buffer? = none)
      (hstarts : g.classes.startingKind ch = none) : Reads g s r taken ch (r.skip ch) taken []
  /-- The character goes into a text, which may give back what closed it. -/
  | text {r : Run} {taken : List Phrase} {ch : Char} (hin : r.inText = true) :
      Reads g s r taken ch (r.readText g s ch).1 (r.textTakes g s ch taken) (r.readText g s ch).2

/-- **The states of a run**, with the phrases taken and the characters left. -/
inductive Reached (g : Grammar) (s : Settings) (text : List Char) : Run → List Phrase → List Char → Prop
  | start : Reached g s text {} [] text
  /-- The phrase being read is complete. -/
  | flush {r : Run} {taken : List Phrase} {rest : List Char} {p : Phrase} (h : Reached g s text r taken rest)
      (hin : r.inText = false) (hbuffer : r.buffer? = some p)
      (hend : ∀ ch ∈ rest.head?, g.classes.continues p.kind ch = false) :
      Reached g s text (r.flush g s) (r.takes g s p true taken) rest
  | read {r r' : Run} {taken taken' : List Phrase} {ch : Char} {again rest : List Char}
      (h : Reached g s text r taken (ch :: rest)) (hread : Reads g s r taken ch r' taken' again) :
      Reached g s text r' taken' (again ++ rest)

/-- **The end of a run**: nothing is left and no phrase is being read. -/
structure Ends (g : Grammar) (s : Settings) (text : List Char) (r : Run) (taken : List Phrase) : Prop where
  reached : Reached g s text r taken []
  buffer : r.buffer? = none

/-- The run over `text` passes through `r`. -/
inductive Passes (g : Grammar) (s : Settings) (text : List Char) : Run → Prop
  | reached {r : Run} {taken : List Phrase} {rest : List Char} (h : Reached g s text r taken rest) : Passes g s text r
  /-- A text took a character and has not given anything back yet. -/
  | closed {r : Run} {taken : List Phrase} {ch : Char} {rest : List Char} (h : Reached g s text r taken (ch :: rest))
      (hin : r.inText = true) : Passes g s text (r.takeChar g s ch)
  /-- What is unfinished at the end of the text was reported. -/
  | reported {r : Run} {taken : List Phrase} (h : Ends g s text r taken) : Passes g s text (r.reportEnd g s)

/-- **The course of a run**: from `r`, with `rest` left, it comes to a later state, with what is left then. -/
inductive Leads (g : Grammar) (s : Settings) (r : Run) (rest : List Char) : Run → List Char → Prop
  | refl : Leads g s r rest r rest
  | flush {r₁ : Run} {rest₁ : List Char} {p : Phrase} (h : Leads g s r rest r₁ rest₁) (hin : r₁.inText = false)
      (hbuffer : r₁.buffer? = some p) (hend : ∀ ch ∈ rest₁.head?, g.classes.continues p.kind ch = false) :
      Leads g s r rest (r₁.flush g s) rest₁
  | read {r₁ r₂ : Run} {taken taken' : List Phrase} {ch : Char} {again rest₁ : List Char}
      (h : Leads g s r rest r₁ (ch :: rest₁)) (hread : Reads g s r₁ taken ch r₂ taken' again) :
      Leads g s r rest r₂ (again ++ rest₁)

/-- The run that stands at `r`, with `rest` left, passes through `r'`. -/
inductive Later (g : Grammar) (s : Settings) (r : Run) (rest : List Char) : Run → Prop
  | reached {r' : Run} {rest' : List Char} (h : Leads g s r rest r' rest') : Later g s r rest r'
  | closed {r' : Run} {ch : Char} {rest' : List Char} (h : Leads g s r rest r' (ch :: rest')) (hin : r'.inText = true) :
      Later g s r rest (r'.takeChar g s ch)
  | reported {r' : Run} (h : Leads g s r rest r' []) (hbuffer : r'.buffer? = none) :
      Later g s r rest (r'.reportEnd g s)

variable {g s} {text again rest rest' chars : List Char} {r r' r₁ r₂ : Run} {taken taken' : List Phrase} {ch : Char}
  {kind : PhraseKind} {depth depth' : Nat}

/-! ### What the steps leave as it is -/

theorem push_eq_of_ne (hkind : kind ≠ .chars) : r.push g s kind ch = r.hold kind ch := by
  simp only [push, if_neg hkind]

/-- A run of other characters is offered; what is taken is not read on. -/
theorem push_chars :
    r.push g s .chars ch =
      if ((r.hold .chars ch).resolve g s (r.grown .chars ch) false).2 then
        { ((r.hold .chars ch).resolve g s (r.grown .chars ch) false).1 with buffer? := none }
      else ((r.hold .chars ch).resolve g s (r.grown .chars ch) false).1 := by
  simp only [push, if_true]
  split
  · next heq => simp [heq]
  · next heq => simp [heq]

theorem grown_text_ne (r : Run) (kind : PhraseKind) (ch : Char) : (r.grown kind ch).text ≠ "" := by
  unfold grown
  split <;> simp [Phrase.push, Phrase.single]

/-- What goes into a phrase leaves it being read, or some instance takes it. -/
theorem push_buffer (g : Grammar) (s : Settings) (r : Run) (kind : PhraseKind) (ch : Char) :
    (r.push g s kind ch).buffer? = none ∨ (r.push g s kind ch).buffer? = some (r.grown kind ch) := by
  by_cases hkind : kind = .chars
  · subst hkind
    rw [push_chars]
    split
    · exact Or.inl rfl
    · exact Or.inr (resolve_places g s (r.hold .chars ch) (r.grown .chars ch) false).buffer
  · rw [push_eq_of_ne hkind]
    exact Or.inr rfl

theorem skip_buffer (r : Run) (ch : Char) : (r.skip ch).buffer? = r.buffer? := by
  unfold skip
  split <;> rfl

theorem flush_of_some {p : Phrase} (hbuffer : r.buffer? = some p) :
    r.flush g s = { (r.resolve g s p true).1 with buffer? := none } := by
  simp only [flush, hbuffer]

theorem flush_of_none (hbuffer : r.buffer? = none) : r.flush g s = r := by
  simp only [flush, hbuffer]

@[simp] theorem buffer_flush : (r.flush g s).buffer? = none := by
  unfold flush
  split
  · rfl
  · next h => exact h

theorem giveBack_of_none (h : r.tree.toReread? r.active = none) : r.giveBack = (r, []) := by
  simp only [giveBack, h]

theorem giveBack_of_some {phrase : String} {start : Cursor} (h : r.tree.toReread? r.active = some (phrase, start)) :
    r.giveBack = ({ r with tree := r.tree.settle r.active, cursor := start }, phrase.toList) := by
  simp only [giveBack, h]

theorem giveBack_buffer : r.giveBack.1.buffer? = r.buffer? := by
  unfold giveBack
  split <;> rfl

theorem takeChar_buffer : (r.takeChar g s ch).buffer? = r.buffer? :=
  (resolve_places g s (r.past ch) (.single .chars r.cursor ch) true).buffer

/-- The report about the end of the text is one more report, which is empty and stands at the end. -/
theorem reportEnd_cases (g : Grammar) (s : Settings) (r : Run) :
    (r.reportEnd g s).tree = r.tree ∧ (r.reportEnd g s).cursor = r.cursor ∧
      ((r.reportEnd g s).reports = r.reports ∨
        ∃ place trail,
          (r.reportEnd g s).reports = ⟨.emptyAt r.cursor, "", .unfinishedRule place, trail⟩ :: r.reports) := by
  unfold reportEnd
  dsimp only
  split
  · exact ⟨rfl, rfl, Or.inr ⟨_, _, rfl⟩⟩
  · exact ⟨rfl, rfl, Or.inl rfl⟩

theorem Reached.buffer_of_inText (h : Reached g s text r taken rest) (hin : r.inText = true) : r.buffer? = none := by
  -- a phrase that is read on was refused, so the text would have been open before
  have hpush : ∀ {r : Run} {kind : PhraseKind} {ch : Char}, r.inText = false → (r.push g s kind ch).inText = true →
      (r.push g s kind ch).buffer? = none := by
    intro r kind ch hout hin
    by_cases hkind : kind = .chars
    · subst hkind
      rw [push_chars] at hin ⊢
      split at hin
      · next ht => rw [if_pos ht]
      · next ht =>
        obtain ⟨htree, hactive, -⟩ := (resolve_places g s (r.hold .chars ch) (r.grown .chars ch) false).refuses
          (by simpa using ht)
        unfold inText at hin
        rw [htree, hactive] at hin
        exact absurd (hout.symm.trans hin) (by simp)
    · rw [push_eq_of_ne hkind] at hin
      exact absurd (hout.symm.trans hin) (by simp)
  induction h with
  | start => rfl
  | flush => exact buffer_flush
  | read _ hread ih =>
    cases hread with
    | lengthen hout => exact hpush hout hin
    | begin hout => exact hpush hout hin
    | skip _ hbuffer => exact (skip_buffer _ _).trans hbuffer
    | text hin' =>
      rw [readText, giveBack_buffer, takeChar_buffer]
      exact ih hin'

/-- **The rule for the phrase being read**: what holds of the phrases that one character opens, and is kept by those
that continue them. -/
theorem Reached.buffer_rule {P : Phrase → Prop}
    (single : ∀ {kind c ch}, g.classes.startingKind ch = some kind → P (.single kind c ch))
    (push : ∀ {p ch}, g.classes.continues p.kind ch = true → P p → P (p.push ch))
    (h : Reached g s text r taken rest) : ∀ p, r.buffer? = some p → P p := by
  induction h with
  | start => exact fun _ hp => nomatch hp
  | flush =>
    intro p hp
    rw [buffer_flush] at hp
    cases hp
  | @read r r' taken taken' ch again rest hr hread ih =>
    intro p hp
    have hgrown : ∀ {kind : PhraseKind}, (r.push g s kind ch).buffer? = some p → p = r.grown kind ch := by
      intro kind hp
      rcases push_buffer g s r kind ch with hnone | hsome
      · rw [hnone] at hp
        cases hp
      · exact (Option.some.inj (hsome.symm.trans hp)).symm
    cases hread with
    | @lengthen q hin hbuffer hcontinues =>
      rw [hgrown hp, grown, hbuffer]
      exact push hcontinues (ih q hbuffer)
    | begin hin hbuffer hstarts =>
      rw [hgrown hp, grown, hbuffer]
      exact single hstarts
    | skip hin hbuffer =>
      rw [skip_buffer, hbuffer] at hp
      cases hp
    | text hin =>
      rw [readText, giveBack_buffer, takeChar_buffer, hr.buffer_of_inText hin] at hp
      cases hp

/-! ### The course of a run -/

theorem Reached.leads (h : Reached g s text r taken rest) : Leads g s {} text r rest := by
  induction h with
  | start => exact .refl
  | flush _ hin hbuffer hend ih => exact ih.flush hin hbuffer hend
  | read _ hread ih => exact ih.read hread

theorem Passes.later (h : Passes g s text r) : Later g s {} text r := by
  cases h with
  | reached h => exact .reached h.leads
  | closed h hin => exact .closed h.leads hin
  | reported h => exact .reported h.reached.leads h.buffer

section Rules

variable {P : Run → Prop}
  (frame : ∀ {r : Run} {buffer? : Option Phrase} {cursor : Cursor}, P r → P { r with buffer?, cursor })
  (resolves : ∀ {r : Run} {p : Phrase} {must : Bool}, P r → P (r.resolve g s p must).1)
  (settles : ∀ {r : Run}, P r → P { r with tree := r.tree.settle r.active })
  (reports : ∀ {r : Run} {d : Diagnostic}, d.isUnexpected = false → P r → P (r.report d))

include frame resolves settles reports

/-- **The invariant rule for the course of a run.**  What is kept by placing a phrase, by leaving a text and by reports
about something else than a phrase, whatever is being read and wherever the run stands in the text, holds from then on. -/
theorem Leads.rule (h : Leads g s r rest r' rest') (start : P r) : P r' := by
  have hpush : ∀ {r : Run} {kind ch}, P r → P (r.push g s kind ch) := by
    intro r kind ch hr
    by_cases hkind : kind = .chars
    · subst hkind
      rw [push_chars]
      split
      · exact frame (resolves (frame hr))
      · exact resolves (frame hr)
    · rw [push_eq_of_ne hkind]
      exact frame hr
  induction h with
  | refl => exact start
  | flush _ _ hbuffer _ ih =>
    rw [flush_of_some hbuffer]
    exact frame (resolves ih)
  | read _ hread ih =>
    cases hread with
    | lengthen | begin => exact hpush ih
    | skip =>
      unfold Run.skip
      split
      · exact frame ih
      · exact reports rfl (frame ih)
    | text =>
      unfold readText giveBack
      split
      · exact frame (settles (resolves (frame ih)))
      · exact resolves (frame ih)

theorem Later.rule (h : Later g s r rest r') (start : P r) : P r' := by
  cases h with
  | reached h => exact h.rule frame resolves settles reports start
  | closed h => exact resolves (frame (h.rule frame resolves settles reports start))
  | reported h =>
    have hr := h.rule frame resolves settles reports start
    unfold reportEnd
    dsimp only
    split
    · exact reports rfl hr
    · exact hr

/-- **The invariant rule for runs.** -/
theorem Passes.rule (h : Passes g s text r) (start : P {}) : P r := h.later.rule frame resolves settles reports start

end Rules

/-- **The invariant rule for trees.**  What holds of the first tree and its active instance, and is kept where a phrase
is taken and where something is given back, holds in every state of every run. -/
theorem Passes.tree_rule {P : Tree → NodeId → Prop} (h : Passes g s text r) (root : P .root 0)
    (takes : ∀ {t active p t' taker}, P t active → t.Takes g active p t' taker → P t' taker)
    (settles : ∀ {t active}, P t active → P (t.settle active) active) : P r.tree r.active :=
  h.rule (P := fun r => P r.tree r.active) (fun hr => hr) (fun hr => resolve_tree hr (takes hr) s _) settles
    (fun _ hr => hr) root

/-! ### Reading -/

/-- **A step reads its character**, after it has placed the phrase being read if that is complete. -/
theorem step_reads (g : Grammar) (s : Settings) (r : Run) (taken : List Phrase) (ch : Char) :
    (∃ taken', Reads g s r taken ch (r.step g s ch).1 taken' (r.step g s ch).2) ∨
      ∃ p taken', r.inText = false ∧ r.buffer? = some p ∧ g.classes.continues p.kind ch = false ∧
        Reads g s (r.flush g s) (r.takes g s p true taken) ch (r.step g s ch).1 taken' (r.step g s ch).2 := by
  have hopen : ∀ {r : Run} {taken}, r.inText = false → r.buffer? = none →
      ∃ taken', Reads g s r taken ch (r.openWith g s ch) taken' [] := by
    intro r taken hin hbuffer
    unfold openWith
    split
    · next hs => exact ⟨_, .begin hin hbuffer hs⟩
    · next hs => exact ⟨_, .skip hin hbuffer hs⟩
  unfold Run.step
  split
  · next hin => exact Or.inl ⟨_, .text hin⟩
  · next hin =>
    have hin : r.inText = false := by simpa using hin
    split
    · next hbuffer => exact Or.inl (hopen hin hbuffer)
    · next p hbuffer =>
      split
      · next hc => exact Or.inl ⟨_, .lengthen hin hbuffer hc⟩
      · next hc =>
        have hc : g.classes.continues p.kind ch = false := by simpa using hc
        refine Or.inr ⟨p, ?_⟩
        dsimp only
        split
        · next hin' => exact ⟨_, hin, hbuffer, hc, .text hin'⟩
        · next hin' =>
          obtain ⟨taken', hreads⟩ := hopen (by simpa using hin') buffer_flush
          exact ⟨taken', hin, hbuffer, hc, hreads⟩

/-- Where the next character is read into a run of other characters, which is offered. -/
theorem step_chars (s : Settings) (hin : r.inText = false) (hbuffer : ∀ p, r.buffer? = some p → p.kind = .chars)
    (hch : g.classes.isOther ch = true) : r.step g s ch = (r.push g s .chars ch, []) := by
  unfold step
  rw [hin]
  cases hb : r.buffer? with
  | none =>
    simp only [Bool.false_eq_true, if_false, openWith, CharClasses.isOther_iff.mp hch]
  | some p =>
    have hcontinues : g.classes.continues .chars ch = true := hch
    simp only [Bool.false_eq_true, if_false, hbuffer p hb, hcontinues, if_true]

theorem Reached.step (h : Reached g s text r taken (ch :: rest)) :
    ∃ taken', Reached g s text (r.step g s ch).1 taken' ((r.step g s ch).2 ++ rest) := by
  rcases step_reads g s r taken ch with ⟨taken', hread⟩ | ⟨p, taken', hin, hbuffer, hc, hread⟩
  · exact ⟨taken', h.read hread⟩
  · exact ⟨taken', (h.flush hin hbuffer (by simpa using hc)).read hread⟩

theorem readAll_cons : readAll g s depth r (ch :: chars) =
    (readChar g s depth r ch).bind fun r => readAll g s depth r chars := by
  simp only [readAll, List.foldlM_cons]
  rfl

theorem readAll_append (g : Grammar) (s : Settings) (depth : Nat) (r : Run) (u v : List Char) :
    readAll g s depth r (u ++ v) = (readAll g s depth r u).bind fun r => readAll g s depth r v := by
  unfold readAll
  rw [List.foldlM_append]
  rfl

theorem readChar_succ : readChar g s (depth + 1) r ch = readAll g s depth (r.step g s ch).1 (r.step g s ch).2 := rfl

/-- **The rule for reading.**  What every step keeps, with the characters left, is kept by reading characters with all
they give back. -/
theorem readAll_rule {P : Run → List Char → Prop}
    (hstep : ∀ {r ch rest}, P r (ch :: rest) → P (r.step g s ch).1 ((r.step g s ch).2 ++ rest))
    (h : P r (chars ++ rest)) (hread : readAll g s depth r chars = some r') : P r' rest := by
  induction depth generalizing r chars rest r' with
  | zero =>
    cases chars with
    | nil => cases hread; exact h
    | cons ch chars => cases hread
  | succ depth ih =>
    induction chars generalizing r with
    | nil => cases hread; exact h
    | cons ch chars ihchars =>
      rw [readAll_cons, readChar_succ, Option.bind_eq_some_iff] at hread
      obtain ⟨r₂, hagain, hread⟩ := hread
      exact ihchars (ih (hstep h) hagain) hread

theorem Reached.readAll (h : Reached g s text r taken (chars ++ rest))
    (hread : Run.readAll g s depth r chars = some r') : ∃ taken', Reached g s text r' taken' rest :=
  readAll_rule (P := fun r rest => ∃ taken, Reached g s text r taken rest) (fun ⟨_, h⟩ => h.step) ⟨taken, h⟩ hread

/-- More levels do no harm. -/
theorem readAll_mono (h : readAll g s depth r chars = some r') (hle : depth ≤ depth') :
    readAll g s depth' r chars = some r' := by
  induction depth generalizing r chars r' depth' with
  | zero =>
    cases chars with
    | nil => exact h
    | cons ch chars => cases h
  | succ depth ih =>
    obtain ⟨depth', rfl⟩ : ∃ d, depth' = d + 1 := ⟨depth' - 1, by omega⟩
    induction chars generalizing r with
    | nil => exact h
    | cons ch chars ihchars =>
      rw [readAll_cons, readChar_succ, Option.bind_eq_some_iff] at h
      obtain ⟨r₁, hagain, hread⟩ := h
      rw [readAll_cons, readChar_succ, ih hagain (by omega), Option.bind_some]
      exact ihchars hread

/-- Where a text comes to its end it does so with one result, whatever the nesting is bounded by. -/
theorem readAll_inj (h : readAll g s depth r chars = some r₁) (h' : readAll g s depth' r chars = some r₂) : r₁ = r₂ :=
  Option.some.inj ((readAll_mono h (le_max_left depth depth')).symm.trans (readAll_mono h' (le_max_right depth depth')))

theorem Reached.ends (h : Reached g s text r taken []) : ∃ taken', Ends g s text (r.flush g s) taken' := by
  cases hbuffer : r.buffer? with
  | none =>
    have hflush : r.flush g s = r := by simp only [Run.flush, hbuffer]
    exact ⟨taken, by rw [hflush]; exact ⟨h, hbuffer⟩⟩
  | some p =>
    cases hin : r.inText with
    | true => rw [h.buffer_of_inText hin] at hbuffer; cases hbuffer
    | false => exact ⟨_, h.flush hin hbuffer (fun _ h => nomatch h), buffer_flush⟩

end Run

/-- **The result of a text** is the end of its run, with the report about the end of the text. -/
theorem Grammar.read?_reached {g : Grammar} {s : Settings} {text : List Char} {r : Run} (h : g.read? s text = some r) :
    ∃ r₀ taken, Run.Ends g s text r₀ taken ∧ r = if s.reportUnfinished then r₀.reportEnd g s else r₀ := by
  obtain ⟨r₁, hread, rfl⟩ := Option.map_eq_some_iff.mp h
  have hstart : Run.Reached g s text {} [] (text ++ []) := by rw [List.append_nil]; exact .start
  obtain ⟨taken₁, h₁⟩ := hstart.readAll hread
  obtain ⟨taken, hends⟩ := h₁.ends
  exact ⟨_, taken, hends, rfl⟩

/-- What relates the runs over two texts under the bound of the first, which is not longer, relates their results. -/
theorem Grammar.read?_rel {R : Run → Run → Prop} {g : Grammar} {s : Settings} {u v : List Char} {a : Run}
    (hle : u.length ≤ v.length)
    (h : Option.Rel R ((Run.readAll g s (allowance u.length) {} u).map (Run.finish g s))
      ((Run.readAll g s (allowance u.length) {} v).map (Run.finish g s)))
    (ha : g.read? s u = some a) : ∃ b, g.read? s v = some b ∧ R a b := by
  obtain ⟨a₀, ha₀, rfl⟩ := Option.map_eq_some_iff.mp ha
  rw [ha₀] at h
  generalize hb : (Run.readAll g s (allowance u.length) {} v).map (Run.finish g s) = found at h
  cases h with
  | some hab =>
    obtain ⟨b₀, hb₀, rfl⟩ := Option.map_eq_some_iff.mp hb
    have hmore : allowance u.length ≤ allowance v.length := Nat.add_le_add_right hle _
    exact ⟨_, by rw [read?, Run.readAll_mono hb₀ hmore]; rfl, hab⟩

theorem Grammar.read?_passes {g : Grammar} {s : Settings} {text : List Char} {r : Run} (h : g.read? s text = some r) :
    Run.Passes g s text r := by
  obtain ⟨r₀, taken, hends, rfl⟩ := read?_reached h
  split
  · exact .reported hends
  · exact .reached hends.reached

end PhraseTree
