import PhraseTree.Proofs.Run.Diagnosis
import Mathlib.Order.Lattice.Nat

/-!
# Runs of other characters

A run of other characters is offered after every character, until some instance takes what was read of it.  An offer
that fails leaves nothing behind but the phrase that is being read, so all offers see the same tree, the last one, which
has to be placed, included.

* `Tree.Accepts g t active p` — some instance takes `p`: the active one, a new one of a global rule, or one around it;
* `Run.Gathers r read r'` — `r'` is `r` but for the characters `read`, which nobody has taken;
* `Run.Absorbs g s r read r'`, `Run.GivesUp g r read r'` — what was read is taken as one phrase, or reported as one;
* `Run.Gathers.refused`, `Run.Gathers.absorbed`: one more character is gathered, or completes the phrase that is taken.

`Grammar.chars_shortest`: the shortest acceptable beginning of such a run is taken when its last character is read; if there
is none, the whole run is reported, whatever follows it.
-/

namespace PhraseTree

variable {g : Grammar} {s : Settings} {text read more rest : List Char} {p : Phrase} {must : Bool} {r r' r₁ : Run}
  {taken taken' : List Phrase} {ch : Char}

/-! ### Who takes a phrase -/

namespace Tree

variable {t t' : Tree} {active taker : NodeId} {who : Option Absorber} {left : List NodeId}

/-- **Some instance takes `p`**: the active one, a new one of a global rule, or one around the active one. -/
def Accepts (g : Grammar) (t : Tree) (active : NodeId) (p : Phrase) : Prop :=
  (t.offer g p active).found?.isSome = true ∨ (∃ rule ∈ g.global.candidates, g.Accepts p rule) ∨
    ∃ id ∈ t.ancestors active, (t.offer g p id).found?.isSome = true

theorem Disposes.isSome_iff (h : t.Disposes g p active who left t' taker) :
    who.isSome = true ↔ t.Accepts g active p := by
  cases h with
  | active hown => exact iff_of_true rfl (Or.inl (by rw [hown, Option.isSome_some]))
  | global _ hfirst _ =>
    obtain ⟨before, after, hsplit, haccepts, -⟩ := hfirst
    exact iff_of_true rfl (Or.inr (Or.inl ⟨_, by rw [hsplit]; simp, haccepts⟩))
  | @around id _ _ _ _ _ haround _ htaken =>
    have hmem : id ∈ t.ancestors active := by rw [haround]; simp
    exact iff_of_true rfl (Or.inr (Or.inr ⟨id, hmem, by rw [htaken, Option.isSome_some]⟩))
  | nobody hown hglobal haround =>
    refine iff_of_false (by simp) ?_
    rintro (h | ⟨rule, hrule, h⟩ | ⟨id, hid, h⟩)
    · rw [hown] at h
      cases h
    · exact hglobal rule hrule h
    · rw [haround id hid] at h
      cases h

end Tree

namespace Run

/-- Placing a phrase succeeds just if some instance takes it, whether it has to be placed or not. -/
theorem resolve_iff : (r.resolve g s p must).2 = true ↔ r.tree.Accepts g r.active p := by
  obtain ⟨who, left, hdisposes, htook, -⟩ := (resolve_resolves g s r p must).diagnoses
  rw [htook]
  exact hdisposes.isSome_iff

instance (t : Tree) (active : NodeId) (p : Phrase) : Decidable (t.Accepts g active p) :=
  decidable_of_iff ((({ tree := t, active } : Run).resolve g {} p false).2 = true) resolve_iff

/-! ### Reading on -/

/-- The phrase of the characters `read` that follow. -/
def piece (r : Run) (read : List Char) : Phrase := .read .chars r.cursor (String.ofList read)

/-- **The run has gathered `read`**, and nothing else has changed. -/
structure Gathers (r : Run) (read : List Char) (r' : Run) : Prop where
  tree : r'.tree = r.tree
  active : r'.active = r.active
  reports : r'.reports = r.reports
  cursor : r'.cursor = r.cursor.advanceOver read
  buffer : r'.buffer? = if read = [] then none else some (r.piece read)

/-- **Some instance takes `read` as one phrase**, which did not have to be placed, and the next phrase begins behind
it. -/
structure Absorbs (g : Grammar) (s : Settings) (r : Run) (read : List Char) (r' : Run) : Prop where
  disposes : ∃ who left, r.tree.Disposes g (r.piece read) r.active (some who) left r'.tree r'.active ∧
    r'.reports = (r.diagnoses g s (r.piece read) false (some who) left r'.tree).reverse ++ r.reports
  cursor : r'.cursor = r.cursor.advanceOver read
  buffer : r'.buffer? = none

/-- **No instance takes anything of `read`.**  The tree and the active instance stay as they are, and there is one report
of an unexpected phrase, which holds all of `read`. -/
structure GivesUp (g : Grammar) (r : Run) (read : List Char) (r' : Run) : Prop where
  tree : r'.tree = r.tree
  active : r'.active = r.active
  reports : ∃ unfinished trail,
    r'.reports = unfinished ++
        ⟨(r.piece read).span, String.ofList read, .unexpectedPhrase (r.tree.place g r.active), trail⟩ :: r.reports ∧
      ∀ d ∈ unfinished, ∃ place, d.reason = .unfinishedRule place
  cursor : r'.cursor = r.cursor.advanceOver read
  buffer : r'.buffer? = none

theorem piece_append (r : Run) (read : List Char) (ch : Char) : r.piece (read ++ [ch]) = (r.piece read).push ch := by
  have htext : String.ofList (read ++ [ch]) = (String.ofList read).push ch := by
    rw [String.ext_iff]
    simp
  simp [piece, Phrase.read, Phrase.push, htext]

/-- What nobody takes although it has to be placed is unexpected, and an instance may be unfinished. -/
theorem diagnoses_nobody (g : Grammar) (s : Settings) (p : Phrase) (r : Run) (left : List NodeId) (t' : Tree) :
    ∃ unfinished trail, r.diagnoses g s p true none left t' =
        ⟨p.span, p.text, .unexpectedPhrase (r.tree.place g r.active), trail⟩ :: unfinished ∧
      ∀ d ∈ unfinished, ∃ place, d.reason = .unfinishedRule place := by
  have hreasons : r.reasons g true none left = .unexpectedPhrase (r.tree.place g r.active) ::
      ((left.find? (r.tree.needsMore g)).map fun id => .unfinishedRule (r.tree.place g id)).toList := by
    simp [reasons]
  rw [diagnoses, hreasons, List.map_cons]
  refine ⟨_, _, rfl, fun d hd => ?_⟩
  obtain ⟨reason, hreason, rfl⟩ := List.mem_map.mp hd
  obtain ⟨id, -, rfl⟩ := Option.map_eq_some_iff.mp (Option.mem_toList.mp hreason)
  exact ⟨_, rfl⟩

namespace Gathers

theorem refl (hbuffer : r.buffer? = none) : r.Gathers [] r := ⟨rfl, rfl, rfl, rfl, hbuffer⟩

theorem inText (h : r.Gathers read r') : r'.inText = r.inText := by rw [Run.inText, h.tree, h.active, Run.inText]

theorem kind (h : r.Gathers read r') : ∀ p, r'.buffer? = some p → p.kind = .chars := by
  intro p hp
  rw [h.buffer] at hp
  split at hp
  · cases hp
  · cases hp
    rfl

theorem grown (h : r.Gathers read r') (ch : Char) : r'.grown .chars ch = r.piece (read ++ [ch]) := by
  rw [piece_append, Run.grown, h.buffer]
  by_cases hread : read = []
  · subst hread
    rw [if_pos rfl, h.cursor]
    rfl
  · rw [if_neg hread]

theorem disposes (h : r.Gathers read r') (r₁ : Run) (htree : r₁.tree = r'.tree) (hactive : r₁.active = r'.active)
    (hreports : r₁.reports = r'.reports) (s : Settings) (p : Phrase) (must : Bool) :
    ∃ who left, r.tree.Disposes g p r.active who left (r₁.resolve g s p must).1.tree (r₁.resolve g s p must).1.active ∧
      (r₁.resolve g s p must).2 = who.isSome ∧
      (r₁.resolve g s p must).1.reports =
        (r.diagnoses g s p must who left (r₁.resolve g s p must).1.tree).reverse ++ r.reports := by
  obtain ⟨who, left, hdisposes, htook, hnew⟩ := (resolve_resolves g s r₁ p must).diagnoses
  simp only [htree, hactive, hreports, h.tree, h.active, h.reports, diagnoses, reasons] at hdisposes hnew
  exact ⟨who, left, hdisposes, htook, hnew⟩

/-- **Nobody takes what was read**, so it is read on. -/
theorem refused (h : r.Gathers read r') (hin : r.inText = false) (hch : g.classes.isOther ch = true) (s : Settings)
    (hno : ¬ r.tree.Accepts g r.active (r.piece (read ++ [ch]))) :
    ∃ r₁, r'.step g s ch = (r₁, []) ∧ r.Gathers (read ++ [ch]) r₁ := by
  obtain ⟨who, left, hdisposes, htook, hnew⟩ :=
    h.disposes (g := g) (r'.hold .chars ch) rfl rfl rfl s (r.piece (read ++ [ch])) false
  have hplaces := resolve_places g s (r'.hold .chars ch) (r.piece (read ++ [ch])) false
  rw [← hdisposes.isSome_iff, Bool.not_eq_true] at hno
  obtain rfl : who = none := by simpa using hno
  obtain ⟨htree, hactive, -⟩ := hplaces.refuses htook
  have hstep : r'.step g s ch = (((r'.hold .chars ch).resolve g s (r.piece (read ++ [ch])) false).1, []) := by
    rw [step_chars s (h.inText.trans hin) h.kind hch, push_chars, h.grown, if_neg (by simp [htook])]
  refine ⟨_, hstep, ?_, ?_, ?_, ?_, ?_⟩
  · rw [htree]
    exact h.tree
  · rw [hactive]
    exact h.active
  · simpa [diagnoses, reasons] using hnew
  · rw [hplaces.cursor, Cursor.advanceOver_append, ← h.cursor]
    rfl
  · rw [hplaces.buffer, if_neg (by simp), ← h.grown]
    rfl

/-- **Some instance takes what was read.** -/
theorem absorbed (h : r.Gathers read r') (hin : r.inText = false) (hch : g.classes.isOther ch = true) (s : Settings)
    (hyes : r.tree.Accepts g r.active (r.piece (read ++ [ch]))) :
    ∃ r₁, r'.step g s ch = (r₁, []) ∧ r.Absorbs g s (read ++ [ch]) r₁ := by
  obtain ⟨who, left, hdisposes, htook, hnew⟩ :=
    h.disposes (g := g) (r'.hold .chars ch) rfl rfl rfl s (r.piece (read ++ [ch])) false
  have hplaces := resolve_places g s (r'.hold .chars ch) (r.piece (read ++ [ch])) false
  rw [← hdisposes.isSome_iff] at hyes
  obtain ⟨who, rfl⟩ := Option.isSome_iff_exists.mp hyes
  have hstep : r'.step g s ch =
      ({ ((r'.hold .chars ch).resolve g s (r.piece (read ++ [ch])) false).1 with buffer? := none }, []) := by
    rw [step_chars s (h.inText.trans hin) h.kind hch, push_chars, h.grown, if_pos (by rw [htook]; rfl)]
  refine ⟨_, hstep, ⟨who, left, hdisposes, hnew⟩, ?_, rfl⟩
  · rw [Cursor.advanceOver_append, ← h.cursor]
    exact hplaces.cursor

/-- **What nobody has taken to the last is given up.** -/
theorem flush (h : r.Gathers read r') (hread : read ≠ []) (hno : ¬ r.tree.Accepts g r.active (r.piece read))
    (s : Settings) : r.GivesUp g read (r'.flush g s) := by
  have hbuffer : r'.buffer? = some (r.piece read) := by rw [h.buffer, if_neg hread]
  obtain ⟨who, left, hdisposes, htook, hnew⟩ := h.disposes (g := g) r' rfl rfl rfl s (r.piece read) true
  have hplaces := resolve_places g s r' (r.piece read) true
  rw [← hdisposes.isSome_iff, Bool.not_eq_true] at hno
  obtain rfl : who = none := by simpa using hno
  obtain ⟨htree, hactive, -⟩ := hplaces.refuses htook
  rw [flush_of_some hbuffer]
  refine ⟨htree.trans h.tree, hactive.trans h.active, ?_, hplaces.cursor.trans h.cursor, rfl⟩
  obtain ⟨unfinished, trail, hnobody, hunfinished⟩ := diagnoses_nobody g s (r.piece read) r left
    (r'.resolve g s (r.piece read) true).1.tree
  refine ⟨unfinished.reverse, trail, ?_, fun d hd => hunfinished d (List.mem_reverse.mp hd)⟩
  rw [hnobody, List.reverse_cons, List.append_assoc] at hnew
  exact hnew

end Gathers

/-! ### Reading a run of other characters -/

theorem readAll_of_step (h : r.step g s ch = (r₁, [])) (depth : Nat) (chars : List Char) :
    readAll g s (depth + 1) r (ch :: chars) = readAll g s (depth + 1) r₁ chars := by
  rw [readAll_cons, readChar_succ, h]
  rfl

/-- What leads to `r₁`, whatever follows, leads to `r₁` if nothing does. -/
theorem readAll_of_append {depth : Nat} (h : ∀ more, readAll g s depth r (read ++ more) = readAll g s depth r₁ more) :
    readAll g s depth r read = some r₁ := by
  have hnil := h []
  rwa [List.append_nil] at hnil

/-- **As long as nobody takes what was read, it is gathered.** -/
theorem readAll_gathers (hbuffer : r.buffer? = none) (hin : r.inText = false) (s : Settings)
    (hother : ∀ ch ∈ read, g.classes.isOther ch = true)
    (hno : ∀ i, 0 < i → i ≤ read.length → ¬ r.tree.Accepts g r.active (r.piece (read.take i))) :
    ∃ r', (∀ depth more, readAll g s (depth + 1) r (read ++ more) = readAll g s (depth + 1) r' more) ∧
      r.Gathers read r' := by
  induction read using List.reverseRecOn with
  | nil => exact ⟨r, fun _ _ => rfl, .refl hbuffer⟩
  | append_singleton read ch ih =>
    obtain ⟨r', hread, hgathers⟩ := ih (fun c hc => hother c (by simp [hc])) fun i hi hle => by
      have := hno i hi (by simp; omega)
      rwa [List.take_append_of_le_length hle] at this
    have hlast := hno (read ++ [ch]).length (by simp) le_rfl
    rw [List.take_length] at hlast
    obtain ⟨r₁, hstep, hgathers₁⟩ := hgathers.refused hin (hother ch (by simp)) s hlast
    refine ⟨r₁, fun depth more => ?_, hgathers₁⟩
    rw [List.append_assoc, hread]
    exact readAll_of_step hstep depth more

/-- **The acceptable beginnings** of a run of other characters, by their lengths. -/
def acceptable (g : Grammar) (r : Run) (run : List Char) : Set Nat :=
  { j | 0 < j ∧ j ≤ run.length ∧ r.tree.Accepts g r.active (r.piece (run.take j)) }

variable {run : List Char} {j : Nat}

theorem readAll_gathers_take (hbuffer : r.buffer? = none) (hin : r.inText = false) (s : Settings)
    (hother : ∀ ch ∈ run, g.classes.isOther ch = true) (hj : j ≤ run.length)
    (hno : ∀ i, i ≤ j → i ∉ r.acceptable g run) :
    ∃ r', (∀ depth more, readAll g s (depth + 1) r (run.take j ++ more) = readAll g s (depth + 1) r' more) ∧
      r.Gathers (run.take j) r' := by
  refine readAll_gathers hbuffer hin s (fun ch hch => hother ch (List.mem_of_mem_take hch)) fun i hi hle haccepts => ?_
  rw [List.length_take] at hle
  rw [List.take_take, Nat.min_eq_left (by omega)] at haccepts
  exact hno i (by omega) ⟨hi, by omega, haccepts⟩

/-- **The shortest acceptable beginning is taken.** -/
theorem readAll_absorbs (hbuffer : r.buffer? = none) (hin : r.inText = false) (s : Settings)
    (hother : ∀ ch ∈ run, g.classes.isOther ch = true) (hj : IsLeast (r.acceptable g run) j) :
    ∃ r', (∀ depth more, readAll g s (depth + 1) r (run.take j ++ more) = readAll g s (depth + 1) r' more) ∧
      r.Absorbs g s (run.take j) r' := by
  obtain ⟨⟨hpos, hle, haccepts⟩, hleast⟩ := hj
  obtain ⟨i, rfl⟩ : ∃ i, j = i + 1 := ⟨j - 1, by omega⟩
  have hlt : i < run.length := hle
  obtain ⟨r₁, hread, hgathers⟩ := readAll_gathers_take hbuffer hin s hother hlt.le
    fun k hk hmem => absurd (hleast hmem) (by omega)
  rw [List.take_add_one, List.getElem?_eq_getElem hlt, Option.toList_some] at haccepts ⊢
  obtain ⟨r', hstep, habsorbs⟩ := hgathers.absorbed hin (hother _ (List.getElem_mem hlt)) s haccepts
  refine ⟨r', fun depth more => ?_, habsorbs⟩
  rw [List.append_assoc, hread]
  exact readAll_of_step hstep depth more

/-- A phrase that is complete is placed before the next character is read, and at the end of the text. -/
theorem readAll_flush (hin : r.inText = false) (hin' : (r.flush g s).inText = false) (hbuffer : r.buffer? = some p)
    (hends : ∀ ch ∈ more.head?, g.classes.continues p.kind ch = false) (depth : Nat) :
    (readAll g s depth r more).map (finish g s) = (readAll g s depth (r.flush g s) more).map (finish g s) := by
  cases more with
  | nil =>
    have hflush : (r.flush g s).flush g s = r.flush g s := flush_of_none buffer_flush
    show some (r.finish g s) = some ((r.flush g s).finish g s)
    rw [finish, finish, hflush]
  | cons ch more =>
    cases depth with
    | zero => rfl
    | succ depth =>
      have hstep : r.step g s ch = (r.flush g s).step g s ch := by
        simp [step, hin, hin', hbuffer, hends ch rfl]
      rw [readAll_cons, readAll_cons, readChar_succ, readChar_succ, hstep]

/-! ### What is still being read -/

theorem push_refused {kind : PhraseKind} (hbuffer : (r.push g s kind ch).buffer? = some p)
    (hgrown : (r.grown kind ch).kind = kind) (hkind : p.kind = .chars) :
    ¬ (r.push g s kind ch).tree.Accepts g (r.push g s kind ch).active p := by
  have hp : p = r.grown kind ch := by
    rcases push_buffer g s r kind ch with hnone | hsome
    · cases hnone.symm.trans hbuffer
    · exact Option.some.inj (hbuffer.symm.trans hsome)
  obtain rfl : kind = .chars := by rw [← hgrown, ← hp, hkind]
  rw [push_chars] at hbuffer ⊢
  split at hbuffer
  · cases hbuffer
  · next htook =>
    obtain ⟨htree, hactive, -⟩ := (resolve_places g s (r.hold .chars ch) (r.grown .chars ch) false).refuses
      (by simpa using htook)
    rw [if_neg htook, htree, hactive, hp]
    exact fun haccepts => htook (resolve_iff.mpr haccepts)

/-- **Nobody takes the other characters that are being read.**  Otherwise they would have been taken before. -/
theorem Reached.refused (h : Reached g s text r taken rest) (hbuffer : r.buffer? = some p) (hkind : p.kind = .chars) :
    ¬ r.tree.Accepts g r.active p := by
  cases h with
  | start => cases hbuffer
  | flush =>
    rw [buffer_flush] at hbuffer
    cases hbuffer
  | read h hread =>
    cases hread with
    | lengthen _ hbuffer₀ =>
      refine push_refused hbuffer ?_ hkind
      rw [grown, hbuffer₀]
      rfl
    | begin _ hbuffer₀ =>
      refine push_refused hbuffer ?_ hkind
      rw [grown, hbuffer₀]
      rfl
    | skip _ hbuffer₀ =>
      rw [skip_buffer, hbuffer₀] at hbuffer
      cases hbuffer
    | text hin =>
      rw [readText, giveBack_buffer, takeChar_buffer, h.buffer_of_inText hin] at hbuffer
      cases hbuffer

/-- **What has no acceptable beginning is given up**, and the text goes on from the same state. -/
theorem Reached.readAll_givesUp (h : Reached g s text r taken (run ++ rest)) (hbuffer : r.buffer? = none)
    (hin : r.inText = false) (hne : run ≠ []) (hother : ∀ ch ∈ run, g.classes.isOther ch = true)
    (hends : ∀ ch ∈ rest.head?, g.classes.isOther ch = false) (hnone : r.acceptable g run = ∅) :
    ∃ r' taken', r.GivesUp g run r' ∧ Reached g s text r' taken' rest ∧
      ∀ depth more, (∀ ch ∈ more.head?, g.classes.isOther ch = false) →
        (Run.readAll g s (depth + 1) r (run ++ more)).map (finish g s) =
          (Run.readAll g s (depth + 1) r' more).map (finish g s) := by
  obtain ⟨r₁, hread, hgathers⟩ := readAll_gathers_take hbuffer hin s hother le_rfl
    fun i _ hmem => by rw [hnone] at hmem; exact hmem
  rw [List.take_length] at hread hgathers
  obtain ⟨taken₁, hreached₁⟩ := h.readAll (readAll_of_append (hread 0))
  have hbuffer₁ : r₁.buffer? = some (r.piece run) := by rw [hgathers.buffer, if_neg hne]
  have hin₁ : r₁.inText = false := hgathers.inText.trans hin
  have hrefused : ¬ r.tree.Accepts g r.active (r.piece run) := by
    rw [← hgathers.tree, ← hgathers.active]
    exact hreached₁.refused hbuffer₁ rfl
  have hgives := hgathers.flush hne hrefused s
  have hin' : (r₁.flush g s).inText = false := by rw [Run.inText, hgives.tree, hgives.active]; exact hin
  refine ⟨r₁.flush g s, _, hgives, hreached₁.flush hin₁ hbuffer₁ hends, fun depth more hmore => ?_⟩
  rw [hread]
  exact readAll_flush hin₁ hin' hbuffer₁ hmore (depth + 1)

end Run

/-- **Other characters are taken as soon as some instance accepts them.**  Take any point of a run where no phrase is
being read, no text is open, and a run of other characters follows.

* If some of its beginnings are acceptable, the shortest of them is taken when its last character is read.  Before that
  nothing happens but that characters are gathered.
* If there are none, the tree and the active instance stay as they are, and the whole run is reported in one piece.
  Whatever follows it, the text goes on from the same state.

Other characters that are still being read are refused by all instances, so they are not taken when they have to be
placed either. -/
theorem Grammar.chars_shortest (g : Grammar) (s : Settings) (text : List Char) :
    (∀ {r taken run rest}, Run.Reached g s text r taken (run ++ rest) → r.buffer? = none → r.inText = false →
        run ≠ [] → (∀ ch ∈ run, g.classes.isOther ch = true) → (∀ ch ∈ rest.head?, g.classes.isOther ch = false) →
      ((r.acceptable g run).Nonempty → ∃ j r' taken', IsLeast (r.acceptable g run) j ∧
          (∀ i < j, ∃ r₁, (∀ depth, Run.readAll g s (depth + 1) r (run.take i) = some r₁) ∧
            r.Gathers (run.take i) r₁) ∧
          r.Absorbs g s (run.take j) r' ∧ Run.Reached g s text r' taken' (run.drop j ++ rest) ∧
          ∀ depth more, Run.readAll g s (depth + 1) r (run.take j ++ more) = Run.readAll g s (depth + 1) r' more) ∧
        (r.acceptable g run = ∅ → ∃ r' taken', r.GivesUp g run r' ∧ Run.Reached g s text r' taken' rest ∧
          ∀ depth more, (∀ ch ∈ more.head?, g.classes.isOther ch = false) →
            (Run.readAll g s (depth + 1) r (run ++ more)).map (Run.finish g s) =
              (Run.readAll g s (depth + 1) r' more).map (Run.finish g s))) ∧
      ∀ {r taken rest p}, Run.Reached g s text r taken rest → r.buffer? = some p → p.kind = .chars →
        ∀ must, (r.resolve g s p must).2 = false := by
  refine ⟨fun {r taken run rest} hreached hbuffer hin hne hother hends => ⟨fun hsome => ?_, fun hnone => ?_⟩, ?_⟩
  · obtain ⟨j, hj⟩ : ∃ j, IsLeast (r.acceptable g run) j := ⟨_, isLeast_csInf hsome⟩
    have hle : j ≤ run.length := hj.1.2.1
    obtain ⟨r', hread, habsorbs⟩ := Run.readAll_absorbs hbuffer hin s hother hj
    rw [← List.take_append_drop j run, List.append_assoc] at hreached
    obtain ⟨taken', hreached'⟩ := hreached.readAll (Run.readAll_of_append (hread 0))
    refine ⟨j, r', taken', hj, fun i hi => ?_, habsorbs, hreached', hread⟩
    obtain ⟨r₁, hread₁, hgathers⟩ := Run.readAll_gathers_take hbuffer hin s hother (by omega : i ≤ run.length)
      fun k hk hmem => absurd (hj.2 hmem) (by omega)
    exact ⟨r₁, fun depth => Run.readAll_of_append (hread₁ depth), hgathers⟩
  · exact hreached.readAll_givesUp hbuffer hin hne hother hends hnone
  · intro r taken rest p hreached hbuffer hkind must
    rw [Bool.eq_false_iff, ne_eq, Run.resolve_iff]
    exact hreached.refused hbuffer hkind

namespace Arrow

/-- An arrow between two words. -/
def rules : List (Rule RuleId) :=
  [⟨topLevelName, [.simple (.identifier "from"), .simple (.keyword "->"), .simple (.identifier "to")]⟩]

theorem sound_rules : Sound rules { key := "global", candidates := [], optional := true } {} := by
  constructor <;> decide +kernel

def grammar : Grammar := ⟨rules, _, _, sound_rules⟩

/-- The run behind the first word. -/
def begun : Run := (Run.readAll grammar {} 1 {} ['a', ' ']).get (by decide +kernel)

theorem reached_begun (rest : List Char) : ∃ taken, Run.Reached grammar {} (['a', ' '] ++ rest) begun taken rest := by
  have hread : Run.readAll grammar {} 1 {} ['a', ' '] = some begun := (Option.some_get _).symm
  exact Run.Reached.start.readAll hread

/-- Of `->>` the arrow is taken, of `>-` nothing. -/
theorem shortest_arrow :
    begun.buffer? = none ∧ begun.inText = false ∧ (∃ r', begun.Absorbs grammar {} ['-', '>'] r') ∧
      (∃ r', begun.GivesUp grammar ['>', '-'] r') ∧
      ∃ (r : Run) (p : Phrase), r.buffer? = some p ∧ p.kind = .chars ∧ (r.resolve grammar {} p true).2 = false := by
  have hbuffer : begun.buffer? = none := by decide +kernel
  have hin : begun.inText = false := by decide +kernel
  have hone : ¬ begun.tree.Accepts grammar begun.active (begun.piece ['-']) := by decide +kernel
  have htwo : begun.tree.Accepts grammar begun.active (begun.piece ['-', '>']) := by decide +kernel
  refine ⟨hbuffer, hin, ?_, ?_, ?_⟩
  · obtain ⟨taken, hreached⟩ := reached_begun (['-', '>', '>'] ++ [])
    have hmem : 2 ∈ begun.acceptable grammar ['-', '>', '>'] := ⟨by decide, by decide, htwo⟩
    obtain ⟨j, r', -, hj, -, habsorbs, -⟩ := ((grammar.chars_shortest {} _).1 hreached hbuffer hin (by decide)
      (List.all_eq_true.mp (by decide +kernel)) (by simp)).1 ⟨2, hmem⟩
    obtain rfl : j = 2 := by
      have hle := hj.2 hmem
      have hpos := hj.1.1
      have hne : j ≠ 1 := by
        rintro rfl
        exact hone hj.1.2.2
      omega
    exact ⟨r', habsorbs⟩
  · obtain ⟨taken, hreached⟩ := reached_begun (['>', '-'] ++ [])
    have hnone : begun.acceptable grammar ['>', '-'] = ∅ := by
      refine Set.eq_empty_of_forall_notMem fun j ⟨hpos, hle, haccepts⟩ => ?_
      have hall : ∀ j ∈ [1, 2], ¬ begun.tree.Accepts grammar begun.active (begun.piece (['>', '-'].take j)) := by
        decide +kernel
      have hle : j ≤ 2 := hle
      exact hall j (by simp; omega) haccepts
    obtain ⟨r', -, hgives, -⟩ := ((grammar.chars_shortest {} _).1 hreached hbuffer hin (by decide)
      (List.all_eq_true.mp (by decide +kernel)) (by simp)).2 hnone
    exact ⟨r', hgives⟩
  · obtain ⟨taken, hreached⟩ := reached_begun ['>']
    obtain ⟨taken', hreached'⟩ := hreached.step
    have hbuffer' : (begun.step grammar {} '>').1.buffer? = some (begun.piece ['>']) := by decide +kernel
    exact ⟨_, _, hbuffer', rfl, (grammar.chars_shortest {} _).2 hreached' hbuffer' rfl true⟩

end Arrow

end PhraseTree
