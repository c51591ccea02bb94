import PhraseTree.Proofs.Run.Verbatim

/-!
# Nothing is lost

`attributed taken reports c` counts who accounts for the character at `c`: the phrases that were taken, and the reports
about input that no instance holds.  In a calm run every character that was read and is not white space is accounted for
once, white space at most once, and no character ahead is accounted for yet; the phrase being read is still ahead
(`Run.Reached.accounts`).

`Grammar.read?_conserves`: where no path gives anything back, the whole text is conserved (`Run.Conserves`).
-/

namespace PhraseTree

/-- How many phrases and reports account for the character at `c`. -/
def attributed (taken : List Phrase) (reports : List Diagnostic) (c : Cursor) : Nat :=
  taken.countP (fun p => p.span.holds c) + reports.countP fun d => d.isResidue && d.span.holds c

/-- **The account of a text** of which the characters up to `upTo` are settled. -/
structure Ledger (text : List Char) (taken : List Phrase) (reports : List Diagnostic) (upTo : Nat) : Prop where
  once : ∀ i, i < text.length → i < upTo → attributed taken reports (cursorAt .start text i) ≤ 1
  kept : ∀ i ch, text[i]? = some ch → i < upTo → Text.isBlank ch = false →
    0 < attributed taken reports (cursorAt .start text i)
  ahead : ∀ i, i < text.length → upTo ≤ i → attributed taken reports (cursorAt .start text i) = 0
  quoted : ∀ p ∈ taken, ∃ a b, Quotes .start text p.span p.text.toList a b

variable {text : List Char} {taken taken' : List Phrase} {reports reports' new : List Diagnostic} {p : Phrase}
  {span : Span} {content : List Char} {c : Cursor} {a b n low pos : Nat}

/-! ### Accounts -/

theorem attributed_cons : attributed (p :: taken) reports c =
    attributed taken reports c + if p.span.holds c = true then 1 else 0 := by
  rw [attributed, attributed, List.countP_cons]
  omega

/-- Reports about one stretch of the text account for what lies in it. -/
theorem attributed_append (hnew : ∀ d ∈ new, d.span = span) : attributed taken (new ++ reports) c =
    attributed taken reports c + if span.holds c = true then new.countP Diagnostic.isResidue else 0 := by
  have hcount : new.countP (fun d => d.isResidue && d.span.holds c) =
      if span.holds c = true then new.countP Diagnostic.isResidue else 0 := by
    split
    · next hc => exact List.countP_congr fun d hd => by simp [hnew d hd, hc]
    · next hc => exact List.countP_eq_zero.mpr fun d hd => by simp [hnew d hd, hc]
  rw [attributed, attributed, List.countP_append, hcount]
  omega

theorem Ledger.nil (text : List Char) : Ledger text [] [] 0 :=
  ⟨fun _ _ h => absurd h (Nat.not_lt_zero _), fun _ _ _ h => absurd h (Nat.not_lt_zero _), fun _ _ _ => rfl,
    fun _ h => nomatch h⟩

/-- The characters from `a` up to `b` are settled; if nobody accounts for them, they are white space. -/
theorem Ledger.advance (h : Ledger text taken reports a) (hab : a ≤ b) (hn : n ≤ 1)
    (hmore : ∀ i, i < text.length → attributed taken' reports' (cursorAt .start text i) =
      attributed taken reports (cursorAt .start text i) + if a ≤ i ∧ i < b then n else 0)
    (hblank : n = 0 → ∀ i ch, a ≤ i → i < b → text[i]? = some ch → Text.isBlank ch = true)
    (hquoted : ∀ p ∈ taken', p ∈ taken ∨ ∃ a b, Quotes .start text p.span p.text.toList a b) :
    Ledger text taken' reports' b where
  once i hi hib := by
    rw [hmore i hi]
    by_cases hai : a ≤ i
    · rw [h.ahead i hi hai, if_pos ⟨hai, hib⟩]
      omega
    · rw [if_neg (by omega)]
      exact h.once i hi (by omega)
  kept i ch hch hib hne := by
    rw [hmore i (List.getElem?_eq_some_iff.mp hch).1]
    by_cases hai : a ≤ i
    · rw [if_pos ⟨hai, hib⟩]
      by_contra hzero
      rw [hblank (by omega) i ch hai hib hch] at hne
      cases hne
    · rw [if_neg (by omega)]
      exact h.kept i ch hch (by omega) hne
  ahead i hi hbi := by
    rw [hmore i hi, if_neg (by omega)]
    exact h.ahead i hi (by omega)
  quoted p hp := (hquoted p hp).elim (h.quoted p) id

theorem Ledger.take (hlen : text.length < 4294967295) (h : Ledger text taken reports a)
    (hp : Quotes .start text p.span p.text.toList a b) : Ledger text (p :: taken) reports b := by
  refine h.advance (n := 1) hp.le le_rfl (fun i hi => ?_) (by simp) fun q hq => ?_
  · rw [attributed_cons]
    simp only [hp.holds_iff hlen hi]
  · rcases List.mem_cons.mp hq with rfl | hq
    · exact Or.inr ⟨a, b, hp⟩
    · exact Or.inl hq

/-- One report about input that no instance holds, and others, are made. -/
theorem Ledger.report (hlen : text.length < 4294967295) (h : Ledger text taken reports a)
    (hspan : Quotes .start text span content a b) (hnew : ∀ d ∈ new, d.span = span)
    (hone : new.countP Diagnostic.isResidue = 1) : Ledger text taken (new ++ reports) b := by
  refine h.advance (n := 1) hspan.le le_rfl (fun i hi => ?_) (by simp) fun _ => Or.inl
  rw [attributed_append hnew, hone]
  simp only [hspan.holds_iff hlen hi]

/-- Reports about instances account for nothing. -/
theorem Ledger.remark (h : Ledger text taken reports a) (hnone : new.countP Diagnostic.isResidue = 0) :
    Ledger text taken (new ++ reports) a := by
  have hsame : ∀ c, attributed taken (new ++ reports) c = attributed taken reports c := by
    intro c
    have hzero : new.countP (fun d => d.isResidue && d.span.holds c) = 0 := by
      refine List.countP_eq_zero.mpr fun d hd => ?_
      have := List.countP_eq_zero.mp hnone d hd
      simp [this]
    rw [attributed, attributed, List.countP_append, hzero, Nat.zero_add]
  exact h.advance (n := 0) le_rfl (Nat.zero_le 1) (fun i _ => by simp [hsame]) (fun _ i ch hai hia => by omega)
    fun _ => Or.inl

theorem Ledger.pass {ch : Char} (h : Ledger text taken reports a) (hch : text[a]? = some ch)
    (hblank : Text.isBlank ch = true) : Ledger text taken reports (a + 1) := by
  refine h.advance (n := 0) (Nat.le_succ a) (Nat.zero_le 1) (fun i _ => by simp) (fun _ i ch' hai hia hch' => ?_)
    fun _ => Or.inl
  have : i = a := by omega
  subst this
  cases hch.symm.trans hch'
  exact hblank

/-! ### What is given back -/

/-- Each of the latest phrases accounts for one character. -/
theorem Singles.holds_iff {k : Nat} (hlen : text.length < 4294967295) (h : Singles .start text taken b pos)
    (hpos : pos ≤ text.length) (hk : b + k < pos) :
    ∃ p, taken[k]? = some p ∧ ∀ i, i < text.length →
      (p.span.holds (cursorAt .start text i) = true ↔ i = pos - 1 - k) := by
  obtain ⟨p, hp, hspan⟩ := h k hk
  have hquotes : Quotes .start text p.span (slice text (pos - 1 - k) (pos - k)) (pos - 1 - k) (pos - k) :=
    ⟨by omega, by omega, hspan, rfl⟩
  refine ⟨p, hp, fun i hi => ?_⟩
  rw [hquotes.holds_iff hlen hi]
  omega

theorem Singles.countP_eq_zero {i : Nat} (hlen : text.length < 4294967295) (h : Singles .start text taken b pos)
    (hpos : pos ≤ text.length) (hib : i < b) (hb : b ≤ pos) :
    (taken.take (pos - b)).countP (fun p => p.span.holds (cursorAt .start text i)) = 0 := by
  refine List.countP_eq_zero.mpr fun p hp => ?_
  obtain ⟨k, hk, rfl⟩ := List.mem_iff_getElem.mp hp
  have hk' : k < pos - b := hk.trans_le (List.length_take_le _ _)
  obtain ⟨q, hq, hholds⟩ := h.holds_iff hlen hpos (by omega : b + k < pos)
  have heq : (taken.take (pos - b))[k] = q := by
    rw [List.getElem_take]
    exact (List.getElem?_eq_some_iff.mp hq).2
  rw [heq, hholds i (by omega)]
  omega

theorem Singles.countP_pos {i : Nat} (hlen : text.length < 4294967295) (h : Singles .start text taken b pos)
    (hpos : pos ≤ text.length) (hbi : b ≤ i) (hip : i < pos) :
    0 < (taken.take (pos - b)).countP fun p => p.span.holds (cursorAt .start text i) := by
  obtain ⟨q, hq, hholds⟩ := h.holds_iff hlen hpos (by omega : b + (pos - 1 - i) < pos)
  have hmem : (taken.take (pos - b))[pos - 1 - i]? = some q := by rw [List.getElem?_take, if_pos (by omega), hq]
  exact List.countP_pos_iff.mpr ⟨q, List.mem_of_getElem? hmem, (hholds i (by omega)).mpr (by omega)⟩

theorem attributed_take_drop (taken : List Phrase) (reports : List Diagnostic) (c : Cursor) (n : Nat) :
    attributed taken reports c =
      (taken.take n).countP (fun p => p.span.holds c) + attributed (taken.drop n) reports c := by
  conv_lhs => rw [attributed, ← List.take_append_drop n taken, List.countP_append]
  rw [attributed]
  omega

/-- **The latest characters are given back.**  The phrases that held them accounted for each of them once. -/
theorem Ledger.giveBack (hlen : text.length < 4294967295) (h : Ledger text taken reports pos) (hpos : pos ≤ text.length)
    (hb : b ≤ pos) (hsingles : Singles .start text taken b pos) : Ledger text (taken.drop (pos - b)) reports b := by
  have hbefore : ∀ i, i < b → attributed (taken.drop (pos - b)) reports (cursorAt .start text i) =
      attributed taken reports (cursorAt .start text i) := by
    intro i hib
    rw [attributed_take_drop taken reports _ (pos - b), hsingles.countP_eq_zero hlen hpos hib hb, Nat.zero_add]
  refine ⟨fun i hi hib => ?_, fun i ch hch hib hne => ?_, fun i hi hbi => ?_,
    fun p hp => h.quoted p (List.mem_of_mem_drop hp)⟩
  · rw [hbefore i hib]
    exact h.once i hi (by omega)
  · rw [hbefore i hib]
    exact h.kept i ch hch (by omega) hne
  · have hsplit := attributed_take_drop taken reports (cursorAt .start text i) (pos - b)
    by_cases hip : i < pos
    · have hone := h.once i hi hip
      have hgiven := hsingles.countP_pos hlen hpos hbi hip
      omega
    · have hzero := h.ahead i hi (by omega)
      omega

/-! ### Accounts along a run -/

namespace Run

variable {g : Grammar} {s : Settings} {keep : Path → Prop} {r r' : Run} {rest again : List Char} {must : Bool}
  {kind : PhraseKind} {ch : Char} {r₀ : Run}

/-- How many characters the phrase being read has. -/
def held (r : Run) : Nat :=
  match r.buffer? with
  | some p => p.text.length
  | none => 0

/-- **The account of a run** that has read the characters up to `pos`.  Those of the phrase being read are not settled. -/
def Accounts (text : List Char) (r : Run) (taken : List Phrase) (pos : Nat) : Prop :=
  Ledger text taken r.reports (pos - r.held)

theorem accounts_iff (hbuffer : r.buffer? = none) : r.Accounts text taken pos ↔ Ledger text taken r.reports pos := by
  simp only [Accounts, held, hbuffer, Nat.sub_zero]

theorem held_hold (r : Run) (kind : PhraseKind) (ch : Char) : (r.hold kind ch).held = r.held + 1 := by
  unfold held hold grown
  cases r.buffer? with
  | none => simp [Phrase.single]
  | some p => simp [Phrase.push]

/-- The phrase being read quotes the latest characters. -/
theorem Tracks.quotes_held (h : Tracks g keep r₀ text r taken low pos) (hbuffer : r.buffer? = some p) :
    Quotes r₀.cursor text p.span p.text.toList (pos - r.held) pos := by
  obtain ⟨a, -, hlt, hp⟩ := h.buffer p hbuffer
  have hlength := hp.length_eq
  have hheld : r.held = pos - a := by simpa only [held, hbuffer, String.length_toList] using hlength
  have ha : pos - r.held = a := by omega
  rw [ha]
  exact hp

/-- **A phrase is placed.**  It is settled if it was taken or had to be. -/
theorem resolve_accounts (hlen : text.length < 4294967295) (h : Ledger text taken r.reports a)
    (hp : Quotes .start text p.span p.text.toList a b) (g : Grammar) (s : Settings) (must : Bool) :
    Ledger text (r.takes g s p must taken) (r.resolve g s p must).1.reports
      (if (must || (r.resolve g s p must).2) = true then b else a) := by
  obtain ⟨new, hreports, hnew, hcount⟩ := (resolve_places g s r p must).reports
  have hspans : ∀ d ∈ new, d.span = p.span := fun d hd => (hnew d hd).1
  rw [hreports, takes]
  cases htook : (r.resolve g s p must).2 with
  | true =>
    have hnone : new.countP Diagnostic.isResidue = 0 := by simpa [htook] using hcount
    simpa using (h.take hlen hp).remark hnone
  | false =>
    cases must with
    | true =>
      have hone : new.countP Diagnostic.isResidue = 1 := by simpa [htook] using hcount
      simpa using h.report hlen hp hspans hone
    | false =>
      have hnone : new.countP Diagnostic.isResidue = 0 := by simpa using hcount
      simpa using h.remark hnone

theorem Accounts.flush (h : r.Accounts text taken pos) (hlen : text.length < 4294967295)
    (htracks : Tracks g keep {} text r taken low pos) (hbuffer : r.buffer? = some p) :
    (r.flush g s).Accounts text (r.takes g s p true taken) pos := by
  have hledger := resolve_accounts hlen h (htracks.quotes_held hbuffer) g s true
  rw [accounts_iff buffer_flush, flush_of_some hbuffer]
  simpa using hledger

theorem Accounts.push (h : r.Accounts text taken pos) (hlen : text.length < 4294967295)
    (htracks : Tracks g keep {} text r taken low pos) (hin : r.inText = false) (hch : text[pos]? = some ch) :
    (r.push g s kind ch).Accounts text (r.pushTakes g s kind ch taken) (pos + 1) := by
  have hhold : (r.hold kind ch).Accounts text taken (pos + 1) := by
    rw [Accounts, held_hold, Nat.add_sub_add_right]
    exact h
  by_cases hkind : kind = .chars
  · subst hkind
    have hquotes := (htracks.hold hin hch .chars).quotes_held rfl
    have hledger := resolve_accounts hlen hhold hquotes g s false
    have hbuffer := (resolve_places g s (r.hold .chars ch) (r.grown .chars ch) false).buffer
    rw [push_chars, pushTakes, if_pos rfl]
    split
    · next htook =>
      rw [accounts_iff rfl]
      simpa [htook] using hledger
    · next htook =>
      have hheld : ((r.hold .chars ch).resolve g s (r.grown .chars ch) false).1.held = (r.hold .chars ch).held := by
        simp only [held, hbuffer]
      rw [Accounts, hheld]
      simpa [htook] using hledger
  · rw [push_eq_of_ne hkind, pushTakes, if_neg hkind]
    exact hhold

theorem Accounts.skip (h : r.Accounts text taken pos) (hlen : text.length < 4294967295)
    (htracks : Tracks g keep {} text r taken low pos) (hbuffer : r.buffer? = none) (hch : text[pos]? = some ch) :
    (r.skip ch).Accounts text taken (pos + 1) := by
  have hledger := (accounts_iff hbuffer).mp h
  unfold Run.skip
  split
  · next hblank => exact (accounts_iff (r := r.past ch) hbuffer).mpr (hledger.pass hch hblank)
  · have hquotes : Quotes .start text ⟨r.cursor, r.cursor.advance ch⟩ [ch] pos (pos + 1) := by
      rw [htracks.cursor]
      exact .single hch
    have hspan : ∀ d ∈ [(⟨⟨r.cursor, r.cursor.advance ch⟩, String.singleton ch, .unknownCharacter, []⟩ : Diagnostic)],
        d.span = ⟨r.cursor, r.cursor.advance ch⟩ := by simp
    exact (accounts_iff (r := (r.past ch).report _) hbuffer).mpr (hledger.report hlen hquotes hspan rfl)

theorem Accounts.readText (h : r.Accounts text taken pos) (hlen : text.length < 4294967295)
    (htracks : Tracks g keep {} text r taken low pos) (hin : r.inText = true) (hbuffer : r.buffer? = none)
    (hch : text[pos]? = some ch) (hkeep : ∀ path : Path, path.HandsBack → keep path) :
    ∃ pos', pos' ≤ text.length ∧ (r.readText g s ch).2 ++ text.drop (pos + 1) = text.drop pos' ∧
      (r.readText g s ch).1.Accounts text (r.textTakes g s ch taken) pos' := by
  obtain ⟨hafter, hgives⟩ := htracks.takeChar (s := s) hin hbuffer hch
  have hquotes : Quotes .start text _ _ pos (pos + 1) := .phrase hch .chars
  rw [← show r.cursor = _ from htracks.cursor] at hquotes
  have hidle : (r.takeChar g s ch).buffer? = none := takeChar_buffer.trans hbuffer
  have hledger : Ledger text (.single .chars r.cursor ch :: taken) (r.takeChar g s ch).reports (pos + 1) := by
    have hresolve := resolve_accounts (r := r.past ch) hlen ((accounts_iff hbuffer).mp h) hquotes g s true
    rw [takes_of_inText (r := r.past ch) htracks.tree.conforms hin, Bool.true_or, if_pos rfl] at hresolve
    exact hresolve
  rw [textTakes, takes_of_inText (r := r.past ch) htracks.tree.conforms hin]
  cases hback : (r.takeChar g s ch).tree.toReread? (r.takeChar g s ch).active with
  | none =>
    rw [Run.readText, giveBack_of_none hback]
    exact ⟨pos + 1, hafter.pos_le, rfl, (accounts_iff hidle).mpr hledger⟩
  | some reread =>
    obtain ⟨phrase, start⟩ := reread
    obtain ⟨b, hgives⟩ := hgives hkeep phrase start hback
    have hb := hgives.lt_pos.le
    rw [Run.readText, giveBack_of_some hback]
    refine ⟨b, hb.trans hafter.pos_le, ?_, ?_⟩
    · dsimp only
      rw [hgives.phrase_eq, slice_append_drop hb]
    · refine (accounts_iff (by exact hidle)).mpr ?_
      dsimp only
      rw [hgives.length_eq hafter.pos_le]
      exact hledger.giveBack hlen hafter.pos_le hb hgives.singles

/-- **Every character that was read is accounted for once.** -/
theorem Reached.accounts (h : Reached g s text r taken rest) (hlen : text.length < 4294967295)
    (hkeep : ∀ path : Path, path.HandsBack → keep path) (hcalm : g.Calm s keep text) :
    r.Accounts text taken (text.length - rest.length) := by
  -- where a state stands is seen from what is left
  have hat : ∀ {rest : List Char} {pos}, rest = text.drop pos → pos ≤ text.length → text.length - rest.length = pos := by
    intro rest pos hrest hpos
    rw [hrest, List.length_drop]
    omega
  induction h with
  | start => simpa [Accounts] using Ledger.nil text
  | flush h hin hbuffer hend ih =>
    obtain ⟨low, pos, htracks, hrest⟩ := h.tracks hkeep hcalm
    rw [hat hrest htracks.pos_le] at ih ⊢
    exact ih.flush hlen htracks hbuffer
  | @read r r' taken taken' ch again rest h hread ih =>
    obtain ⟨low, pos, htracks, hrest⟩ := h.tracks hkeep hcalm
    rw [hat hrest htracks.pos_le] at ih
    obtain ⟨hch, hdrop⟩ := of_cons_eq_drop hrest
    have hlt : pos + 1 ≤ text.length := (List.getElem?_eq_some_iff.mp hch).1
    cases hread with
    | lengthen hin | begin hin =>
      rw [List.nil_append, hat hdrop hlt]
      exact ih.push hlen htracks hin hch
    | skip hin hbuffer =>
      rw [List.nil_append, hat hdrop hlt]
      exact ih.skip hlen htracks hbuffer hch
    | text hin =>
      obtain ⟨pos', hpos', hagain, haccounts⟩ :=
        ih.readText (s := s) hlen htracks hin (h.buffer_of_inText hin) hch hkeep
      rw [hdrop, hat hagain hpos']
      exact haccounts

/-- **What a run conserves** of its text, where `taken` are the phrases that were taken and not given back. -/
structure Conserves (g : Grammar) (text : List Char) (r : Run) (taken : List Phrase) : Prop where
  /-- The run stands at the end of the text. -/
  cursor : r.cursor = Cursor.start.advanceOver text
  /-- Reports quote the text. -/
  reports : ∀ d ∈ r.reports, d.content.toList = d.span.cut text
  /-- So do captures, except those of modifiers, which may be apart. -/
  captures : ∀ part c, r.tree.Has g (fun _ => True) part c → (∀ m, part ≠ .modifiers m) → c.value.toList = c.span.cut text
  /-- So do the phrases taken. -/
  phrases : ∀ p ∈ taken, p.text.toList = p.span.cut text
  /-- No character is accounted for twice. -/
  once : ∀ i, i < text.length → attributed taken r.reports (cursorAt .start text i) ≤ 1
  /-- No character but white space is lost. -/
  kept : ∀ i ch, text[i]? = some ch → Text.isBlank ch = false →
    attributed taken r.reports (cursorAt .start text i) = 1

theorem Ends.conserves (h : Ends g s text r taken) (hlen : text.length < 4294967295)
    (hcalm : g.Calm s (fun _ => True) text) : r.Conserves g text taken := by
  have hkeep : ∀ path : Path, path.HandsBack → True := fun _ _ => trivial
  obtain ⟨low, htracks⟩ := h.tracks hkeep hcalm
  have hledger : Ledger text taken r.reports text.length :=
    (accounts_iff h.buffer).mp (h.reached.accounts hlen hkeep hcalm)
  exact {
    cursor := by rw [htracks.cursor, cursorAt_length]
    reports := fun d hd => by
      rcases htracks.reports d hd with hd | ⟨a, b, hquotes⟩
      · cases hd
      · exact hquotes.eq_cut hlen
    captures := fun _ _ hc hm => htracks.value_eq_cut hlen hc hm
    phrases := fun p hp => by
      obtain ⟨a, b, hquotes⟩ := hledger.quoted p hp
      exact hquotes.eq_cut hlen
    once := fun i hi => hledger.once i hi hi
    kept := fun i ch hch hne => by
      have hi := (List.getElem?_eq_some_iff.mp hch).1
      have hle := hledger.once i hi hi
      have hpos := hledger.kept i ch hch hi hne
      omega }

/-- The report about the end of the text is empty and accounts for nothing. -/
theorem Conserves.reportEnd (h : r.Conserves g text taken) (hlen : text.length < 4294967295) (s : Settings) :
    (r.reportEnd g s).Conserves g text taken := by
  obtain ⟨htree, hcursor, hreports⟩ := r.reportEnd_cases g s
  have hsame : ∀ c, attributed taken (r.reportEnd g s).reports c = attributed taken r.reports c := by
    intro c
    rcases hreports with hreports | ⟨place, trail, hreports⟩
    · rw [hreports]
    · rw [hreports, attributed, attributed, List.countP_cons]
      simp [Diagnostic.isResidue]
  refine ⟨hcursor.trans h.cursor, fun d hd => ?_, by rw [htree]; exact h.captures, h.phrases,
    fun i hi => by rw [hsame]; exact h.once i hi, fun i ch hch hne => by rw [hsame]; exact h.kept i ch hch hne⟩
  rcases hreports with hreports | ⟨place, trail, hreports⟩
  · rw [hreports] at hd
    exact h.reports d hd
  · rw [hreports] at hd
    rcases List.mem_cons.mp hd with rfl | hd
    · have hempty : Quotes .start text (.emptyAt (cursorAt .start text text.length)) [] text.length text.length :=
        .empty le_rfl
      rw [cursorAt_length, ← h.cursor] at hempty
      exact hempty.eq_cut hlen
    · exact h.reports d hd

end Run

/-- **Nothing is lost.**  Where no path gives anything back, every text is read to its end and conserved. -/
theorem Grammar.read?_conserves {g : Grammar} {s : Settings} {text : List Char} (hpaths : g.KeepsPaths)
    (hlen : text.length < 4294967295) :
    ∃ r₀ r taken, Run.Ends g s text r₀ taken ∧ g.read? s text = some r ∧
      r = (if s.reportUnfinished then r₀.reportEnd g s else r₀) ∧ r.Conserves g text taken := by
  have hcalm : g.Calm s (fun _ => True) text := hpaths.apart.calm s text
  obtain ⟨r, taken, hends, hread⟩ := hcalm.read?_ends fun _ _ => trivial
  have hconserves := hends.conserves hlen hcalm
  refine ⟨r, _, taken, hends, hread, rfl, ?_⟩
  split
  · exact hconserves.reportEnd hlen s
  · exact hconserves

theorem Listing.conserves_listing :
    (grammar false).KeepsPaths ∧ ∃ r₀ r taken, Run.Ends (grammar false) {} ['a', ' ', '1', '#', '?', '.'] r₀ taken ∧
      (grammar false).read? {} ['a', ' ', '1', '#', '?', '.'] = some r ∧ r = r₀ ∧
      r.Conserves (grammar false) ['a', ' ', '1', '#', '?', '.'] taken := by
  have hpaths : (grammar false).KeepsPaths := by decide +kernel
  exact ⟨hpaths, Grammar.read?_conserves hpaths (by decide)⟩

end PhraseTree
