import PhraseTree.Proofs.Capture.Tracking
import PhraseTree.Proofs.Run.Reached

/-!
# Runs against the text

`Run.Tracks g keep r₀ text r taken low pos` says how a state `r` stands in the text that was to be read from `r₀` on: the
characters up to `pos` were read, nothing open began before `low`, and the tree, the phrase being read and the reports
quote the text, as far as they were not there before.  The captures spoken of are those along paths that `keep` allows.

A text may give characters back while texts of other branches are open, which have taken these characters already.  Such
branches lose their place, so what is proved here is about *calm* runs: where something is given back, none of the
captures spoken of is open (`Grammar.Calm`).

* `Run.Tracks.read`, `Run.Tracks.step`: reading a character keeps a run in its place, and where characters are given
  back, `low` moves on to where they are read again;
* `Run.Reached.tracks`: the states of calm runs stand in the text as they should.
-/

namespace PhraseTree

namespace Run

/-- **A run that stands in its text**, where nothing open began before `low`. -/
structure Tracks (g : Grammar) (keep : Path → Prop) (r₀ : Run) (text : List Char) (r : Run) (taken : List Phrase)
    (low pos : Nat) : Prop where
  tree : r.tree.Tracked g keep r.active r₀.tree r₀.cursor text taken low pos
  low_le : low ≤ pos
  pos_le : pos ≤ text.length
  cursor : r.cursor = cursorAt r₀.cursor text pos
  buffer : ∀ p, r.buffer? = some p → ∃ a, low ≤ a ∧ a < pos ∧ Quotes r₀.cursor text p.span p.text.toList a pos
  reports : ∀ d ∈ r.reports, d ∈ r₀.reports ∨ ∃ a b, Quotes r₀.cursor text d.span d.content.toList a b

end Run

/-- **A calm run**: where a text was just closed and gives something back, no other text is open, as far as `keep`
allows its path. -/
def Grammar.Calm (g : Grammar) (s : Settings) (keep : Path → Prop) (text : List Char) : Prop :=
  ∀ r taken ch rest r' taken' again, Run.Reached g s text r taken (ch :: rest) →
    Run.Reads g s r taken ch r' taken' again → again ≠ [] → ∀ part c, r'.tree.Has g keep part c → c.inText = false

theorem Grammar.Calm.mono {g : Grammar} {s : Settings} {keep keep' : Path → Prop} {text : List Char}
    (h : g.Calm s keep' text) (hkeep : ∀ path, keep path → keep' path) : g.Calm s keep text :=
  fun r taken ch rest r' taken' again hr hread hagain part c hc =>
    h r taken ch rest r' taken' again hr hread hagain part c (hc.mono hkeep)

namespace Run

variable {g : Grammar} {s : Settings} {keep : Path → Prop} {text again rest : List Char} {r₀ r r' : Run}
  {taken taken' : List Phrase} {low pos a : Nat} {p : Phrase} {must : Bool} {kind : PhraseKind} {ch : Char}

/-- A run between two phrases, with no text open, stands at the beginning of what is left. -/
theorem Tracks.start (hc : r.tree.Conforms g) (ho : r.tree.OpenOnlyAt r.active)
    (hclosed : ∀ part c, r.tree.Has g keep part c → c.inText = false) (hbuffer : r.buffer? = none) :
    Tracks g keep r text r taken 0 0 where
  tree := .start hc ho hclosed
  low_le := le_rfl
  pos_le := Nat.zero_le _
  cursor := rfl
  buffer := by simp [hbuffer]
  reports := fun d hd => Or.inl hd

theorem resolve_of_inText (hc : r.tree.Conforms g) (hin : r.inText = true) : (r.resolve g s p must).2 = true := by
  by_contra htook
  obtain ⟨-, -, hrefused⟩ := (resolve_places g s r p must).refuses (by simpa using htook)
  obtain ⟨e, he⟩ := hc.offer_of_inText hin p
  rw [he] at hrefused
  cases hrefused

theorem takes_of_inText (hc : r.tree.Conforms g) (hin : r.inText = true) : r.takes g s p must taken = p :: taken := by
  rw [takes, if_pos (resolve_of_inText hc hin)]

/-- **A phrase is placed**, which is a single character if a text is open. -/
theorem resolve_tracks (htree : r.tree.Tracked g keep r.active r₀.tree r₀.cursor text taken low a)
    (hreports : ∀ d ∈ r.reports, d ∈ r₀.reports ∨ ∃ a b, Quotes r₀.cursor text d.span d.content.toList a b)
    (hcursor : r.cursor = cursorAt r₀.cursor text b) (hbuffer : ∀ p, r.buffer? = some p → ∃ a, low ≤ a ∧ a < b ∧
      Quotes r₀.cursor text p.span p.text.toList a b)
    (hp : Quotes r₀.cursor text p.span p.text.toList a b) (hlow : low ≤ a) (hlt : a < b)
    (hone : r.inText = true → b = a + 1) (s : Settings) (must : Bool) :
    Tracks g keep r₀ text (r.resolve g s p must).1 (r.takes g s p must taken) low b := by
  have hplaces := resolve_places g s r p must
  obtain ⟨new, hnew, hquotes, -⟩ := hplaces.reports
  refine ⟨?_, hlow.trans hlt.le, hp.le_length, by rw [hplaces.cursor, hcursor], by rw [hplaces.buffer]; exact hbuffer, ?_⟩
  · rw [takes]
    cases htook : (r.resolve g s p must).2 with
    | true => exact (hplaces.takes htook).tracked htree hp hlow hlt hone
    | false =>
      have hclosed : r.inText = false := by
        by_contra hin
        rw [resolve_of_inText htree.conforms (by simpa using hin)] at htook
        cases htook
      obtain ⟨hsame, hactive, -⟩ := hplaces.refuses htook
      rw [hsame, hactive]
      exact htree.move (htree.closed hclosed)
  · intro d hd
    rw [hnew] at hd
    rcases List.mem_append.mp hd with hd | hd
    · obtain ⟨hspan, hcontent⟩ := hquotes d hd
      exact Or.inr ⟨a, b, by rw [hspan, hcontent]; exact hp⟩
    · exact hreports d hd

theorem Tracks.resolve (h : Tracks g keep r₀ text r taken low pos) (hin : r.inText = false)
    (hp : Quotes r₀.cursor text p.span p.text.toList a pos) (hlow : low ≤ a) (hlt : a < pos) (must : Bool) :
    Tracks g keep r₀ text (r.resolve g s p must).1 (r.takes g s p must taken) low pos :=
  resolve_tracks (h.tree.move (h.tree.closed hin)) h.reports h.cursor h.buffer hp hlow hlt
    (fun hopen => absurd (hin.symm.trans hopen) (by simp)) s must

theorem Tracks.clear (h : Tracks g keep r₀ text r taken low pos) :
    Tracks g keep r₀ text { r with buffer? := none } taken low pos :=
  ⟨h.tree, h.low_le, h.pos_le, h.cursor, by simp, h.reports⟩

theorem Tracks.flush (h : Tracks g keep r₀ text r taken low pos) (hin : r.inText = false)
    (hbuffer : r.buffer? = some p) : Tracks g keep r₀ text (r.flush g s) (r.takes g s p true taken) low pos := by
  obtain ⟨a, hlow, hlt, hp⟩ := h.buffer p hbuffer
  rw [flush_of_some hbuffer]
  exact (h.resolve hin hp hlow hlt true).clear

/-- The phrase being read quotes the text, with one more character. -/
theorem Tracks.grown (h : Tracks g keep r₀ text r taken low pos) (hch : text[pos]? = some ch) (kind : PhraseKind) :
    ∃ a, low ≤ a ∧ a < pos + 1 ∧
      Quotes r₀.cursor text (r.grown kind ch).span (r.grown kind ch).text.toList a (pos + 1) := by
  unfold Run.grown
  split
  · next p hbuffer =>
    obtain ⟨a, hlow, hlt, hp⟩ := h.buffer p hbuffer
    refine ⟨a, hlow, by omega, ?_⟩
    have happ := hp.append (.single hch)
    rw [← show p.span.stop = cursorAt r₀.cursor text pos by rw [hp.span_eq]] at happ
    simpa [Phrase.push] using happ
  · refine ⟨pos, h.low_le, Nat.lt_succ_self pos, ?_⟩
    rw [h.cursor]
    simpa [Phrase.single] using Quotes.single hch

theorem Tracks.hold (h : Tracks g keep r₀ text r taken low pos) (hin : r.inText = false) (hch : text[pos]? = some ch)
    (kind : PhraseKind) : Tracks g keep r₀ text (r.hold kind ch) taken low (pos + 1) where
  tree := h.tree.move (h.tree.closed hin)
  low_le := Nat.le_succ_of_le h.low_le
  pos_le := (List.getElem?_eq_some_iff.mp hch).1
  cursor := by
    rw [← cursorAt_advance hch, ← h.cursor]
    rfl
  buffer := by
    intro p hp
    cases hp
    exact h.grown hch kind
  reports := h.reports

theorem Tracks.push (h : Tracks g keep r₀ text r taken low pos) (hin : r.inText = false) (hch : text[pos]? = some ch) :
    Tracks g keep r₀ text (r.push g s kind ch) (r.pushTakes g s kind ch taken) low (pos + 1) := by
  have hhold := h.hold hin hch kind
  by_cases hkind : kind = .chars
  · subst hkind
    obtain ⟨a, hlow, hlt, hp⟩ := h.grown hch .chars
    have hresolve := hhold.resolve (s := s) hin hp hlow hlt false
    rw [push_chars, pushTakes, if_pos rfl]
    split
    · exact hresolve.clear
    · exact hresolve
  · rw [push_eq_of_ne hkind, pushTakes, if_neg hkind]
    exact hhold

theorem Tracks.skip (h : Tracks g keep r₀ text r taken low pos) (hin : r.inText = false) (hbuffer : r.buffer? = none)
    (hch : text[pos]? = some ch) : Tracks g keep r₀ text (r.skip ch) taken low (pos + 1) := by
  have hpast : Tracks g keep r₀ text (r.past ch) taken low (pos + 1) :=
    { h.hold hin hch .chars with buffer := by simp [past, hbuffer] }
  unfold Run.skip
  split
  · exact hpast
  · refine { hpast with reports := fun d hd => ?_ }
    rcases List.mem_cons.mp hd with rfl | hd
    · exact Or.inr ⟨pos, pos + 1, by rw [h.cursor]; simpa using Quotes.single hch⟩
    · exact hpast.reports d hd

/-! ### Characters in a text -/

/-- **A character goes into a text.**  What is given back on its account are the latest characters. -/
theorem Tracks.takeChar (h : Tracks g keep r₀ text r taken low pos) (hin : r.inText = true) (hbuffer : r.buffer? = none)
    (hch : text[pos]? = some ch) :
    Tracks g keep r₀ text (r.takeChar g s ch) (.single .chars r.cursor ch :: taken) low (pos + 1) ∧
      ((∀ path : Path, path.HandsBack → keep path) → ∀ phrase start,
        (r.takeChar g s ch).tree.toReread? (r.takeChar g s ch).active = some (phrase, start) →
          ∃ b, GivesBack r₀.cursor text low (pos + 1) (.single .chars r.cursor ch :: taken) phrase start b) := by
  have hp : Quotes r₀.cursor text _ _ pos (pos + 1) := .phrase hch .chars
  rw [← h.cursor] at hp
  have hcursor : (r.past ch).cursor = cursorAt r₀.cursor text (pos + 1) := by
    rw [← cursorAt_advance hch, ← h.cursor]
    rfl
  have hafter := resolve_tracks (r := r.past ch) h.tree h.reports hcursor (by simp [past, hbuffer]) hp h.low_le
    (Nat.lt_succ_self pos) (fun _ => rfl) s true
  rw [takes_of_inText (r := r.past ch) h.tree.conforms hin] at hafter
  have htakes := (resolve_places g s (r.past ch) (.single .chars r.cursor ch) true).takes
    (resolve_of_inText (r := r.past ch) h.tree.conforms hin)
  exact ⟨hafter, fun hkeep phrase start hback => htakes.givesBack h.tree hin hp hkeep hback⟩

/-- **A text gives back what closed it.**  Then nothing is open that began before the place from where it is read
again. -/
theorem Tracks.readText (h : Tracks g keep r₀ text r taken low pos) (hin : r.inText = true) (hbuffer : r.buffer? = none)
    (hch : text[pos]? = some ch) (hkeep : ∀ path : Path, path.HandsBack → keep path)
    (hcalm : (r.readText g s ch).2 ≠ [] →
      ∀ part c, (r.readText g s ch).1.tree.Has g keep part c → c.inText = false) :
    ∃ low' pos', Tracks g keep r₀ text (r.readText g s ch).1 (r.textTakes g s ch taken) low' pos' ∧
      (r.readText g s ch).2 ++ text.drop (pos + 1) = text.drop pos' ∧ low ≤ low' ∧
      ((r.readText g s ch).2 ≠ [] → low < low' ∧ low' = pos') := by
  obtain ⟨hafter, hgives⟩ := h.takeChar (s := s) hin hbuffer hch
  have htaken : (r.past ch).takes g s (.single .chars r.cursor ch) true taken = .single .chars r.cursor ch :: taken :=
    takes_of_inText (r := r.past ch) h.tree.conforms hin
  rw [textTakes, htaken]
  cases hback : (r.takeChar g s ch).tree.toReread? (r.takeChar g s ch).active with
  | none =>
    rw [Run.readText, giveBack_of_none hback]
    exact ⟨low, pos + 1, hafter, rfl, le_rfl, by simp⟩
  | some again =>
    obtain ⟨phrase, start⟩ := again
    obtain ⟨b, hgives⟩ := hgives hkeep phrase start hback
    have hb := hgives.lt_pos
    have hne : phrase.toList ≠ [] := by
      rw [← List.length_pos_iff, hgives.length_eq hafter.pos_le]
      omega
    rw [Run.readText, giveBack_of_some hback] at hcalm ⊢
    refine ⟨b, b, ?_, ?_, hgives.low_lt.le, fun _ => ⟨hgives.low_lt, rfl⟩⟩
    · exact {
        tree := (hafter.tree.settle _).move (hcalm hne)
        low_le := le_rfl
        pos_le := hb.le.trans hafter.pos_le
        cursor := hgives.start_eq
        buffer := by simp [takeChar_buffer, hbuffer]
        reports := hafter.reports }
    · dsimp only
      rw [hgives.phrase_eq, slice_append_drop hb.le]

/-! ### Reading -/

/-- **Reading a character keeps a run in its place**, as long as what is given back disturbs no other text.  Where
characters are given back, `low` moves on to the place from where they are read again. -/
theorem Tracks.read (h : Tracks g keep r₀ text r taken low pos) (hidle : r.inText = true → r.buffer? = none)
    (hrest : ch :: rest = text.drop pos) (hkeep : ∀ path : Path, path.HandsBack → keep path)
    (hread : Reads g s r taken ch r' taken' again)
    (hcalm : again ≠ [] → ∀ part c, r'.tree.Has g keep part c → c.inText = false) :
    ∃ low' pos', Tracks g keep r₀ text r' taken' low' pos' ∧ again ++ rest = text.drop pos' ∧ low ≤ low' ∧
      (again ≠ [] → low < low' ∧ low' = pos') := by
  obtain ⟨hch, hdrop⟩ := of_cons_eq_drop hrest
  cases hread with
  | lengthen hin | begin hin => exact ⟨low, pos + 1, h.push hin hch, hdrop, le_rfl, by simp⟩
  | skip hin hbuffer => exact ⟨low, pos + 1, h.skip hin hbuffer hch, hdrop, le_rfl, by simp⟩
  | text hin =>
    rw [hdrop]
    exact h.readText hin (hidle hin) hch hkeep hcalm

/-- **A step keeps a run in its place.** -/
theorem Tracks.step {text₀ : List Char} {taken₀ : List Phrase} (h : Tracks g keep r₀ text r taken low pos)
    (hreached : Reached g s text₀ r taken₀ (ch :: rest)) (hrest : ch :: rest = text.drop pos)
    (hkeep : ∀ path : Path, path.HandsBack → keep path)
    (hcalm : (r.step g s ch).2 ≠ [] → ∀ part c, (r.step g s ch).1.tree.Has g keep part c → c.inText = false) :
    ∃ taken' low' pos', Tracks g keep r₀ text (r.step g s ch).1 taken' low' pos' ∧
      (r.step g s ch).2 ++ rest = text.drop pos' ∧ low ≤ low' ∧
      ((r.step g s ch).2 ≠ [] → low < low' ∧ low' = pos') := by
  rcases step_reads g s r taken ch with ⟨taken', hread⟩ | ⟨p, taken', hin, hbuffer, hc, hread⟩
  · exact ⟨taken', h.read hreached.buffer_of_inText hrest hkeep hread hcalm⟩
  · exact ⟨taken', (h.flush hin hbuffer).read (fun _ => buffer_flush) hrest hkeep hread hcalm⟩

theorem Reached.step_calm (h : Reached g s text r taken (ch :: rest)) (hcalm : g.Calm s keep text)
    (hagain : (r.step g s ch).2 ≠ []) :
    ∀ part c, (r.step g s ch).1.tree.Has g keep part c → c.inText = false := by
  rcases step_reads g s r taken ch with ⟨taken', hread⟩ | ⟨p, taken', hin, hbuffer, hc, hread⟩
  · exact hcalm _ _ _ _ _ _ _ h hread hagain
  · exact hcalm _ _ _ _ _ _ _ (h.flush hin hbuffer (by simpa using hc)) hread hagain

theorem tracks_start : Tracks g keep {} text {} [] 0 0 :=
  .start (Tree.root_conforms g) Tree.root_openOnlyAt (fun _ _ hc => absurd hc Tree.not_has_root) rfl

/-- A state stands in the text as it should if along the way nothing was open where something was given back. -/
theorem Reached.tracks_of (h : Reached g s text r taken rest) (hkeep : ∀ path : Path, path.HandsBack → keep path)
    (hcalm : ∀ r taken ch rest r' taken' again low pos, Tracks g keep {} text r taken low pos →
      ch :: rest = text.drop pos → Reached g s text r taken (ch :: rest) → Reads g s r taken ch r' taken' again →
        again ≠ [] → ∀ part c, r'.tree.Has g keep part c → c.inText = false) :
    ∃ low pos, Tracks g keep {} text r taken low pos ∧ rest = text.drop pos := by
  induction h with
  | start => exact ⟨0, 0, tracks_start, rfl⟩
  | flush h hin hbuffer hend ih =>
    obtain ⟨low, pos, htracks, hrest⟩ := ih
    exact ⟨low, pos, htracks.flush hin hbuffer, hrest⟩
  | read h hread ih =>
    obtain ⟨low, pos, htracks, hrest⟩ := ih
    obtain ⟨low', pos', htracks', hrest', -, -⟩ :=
      htracks.read h.buffer_of_inText hrest hkeep hread (hcalm _ _ _ _ _ _ _ _ _ htracks hrest h hread)
    exact ⟨low', pos', htracks', hrest'⟩

/-- **The states of calm runs stand in the text as they should.** -/
theorem Reached.tracks (h : Reached g s text r taken rest) (hkeep : ∀ path : Path, path.HandsBack → keep path)
    (hcalm : g.Calm s keep text) : ∃ low pos, Tracks g keep {} text r taken low pos ∧ rest = text.drop pos :=
  h.tracks_of hkeep fun _ _ _ _ _ _ _ _ _ _ _ hr hread => hcalm _ _ _ _ _ _ _ hr hread

end Run

end PhraseTree
