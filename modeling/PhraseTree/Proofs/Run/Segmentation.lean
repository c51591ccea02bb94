import PhraseTree.Proofs.Grammar.Leading
import PhraseTree.Proofs.Run.Calm
import PhraseTree.Proofs.Run.Journal
import PhraseTree.Proofs.Text.Lexer

/-!
# Segments of a text

Where no rule has a text part, the phrases that a run offers are the tokens of the text, which depend on the character
classes alone (`Grammar.journal_segments`).  Words and numbers are offered once, when they are complete.  A run of other
characters is offered again and again as it grows, and what is taken of it is not offered any more; so the phrases that
leave the run make up the token, in order.

* `Grammar.Textless` — no rule has a text part;
* `Token.Covers token events` — what happens in a run on account of a token;
* `Covered tokens log` — the events of the journal that matter are those on account of the tokens, in order;
* `Run.covers_logOn`: what happens while the rest of a text is read, wherever the run stands.
-/

namespace PhraseTree

/-! ### Grammars without text parts -/

/-- No rule has a text part. -/
def Grammar.Textless (g : Grammar) : Prop := ∀ rule ∈ g.rules, ∀ part ∈ rule.parts, ¬ part.HasText

instance (g : Grammar) : Decidable g.Textless := inferInstanceAs (Decidable (∀ rule ∈ g.rules, _))

theorem Grammar.Textless.not_hasText {g : Grammar} (hg : g.Textless) {rule : RuleId} {part : Part RuleId}
    (h : part ∈ g.parts rule) : ¬ part.HasText := by
  obtain ⟨r, hr, hmem⟩ := exists_rule_of_mem_parts h
  exact hg r hr part hmem

theorem Grammar.Textless.inText {g : Grammar} (hg : g.Textless) {t : Tree} (hc : t.Conforms g) (id : NodeId) :
    t.inText id = false := by
  by_contra hin
  obtain ⟨n, hn, e, hlast, hein⟩ : ∃ n, t.node? id = some n ∧ ∃ e, n.last? = some e ∧ e.inText = true := by
    simpa [Tree.inText, Node.inText, Option.any_eq_true] using hin
  have hfits := (hc.legal id n hn).fits e (List.mem_of_mem_head? hlast)
  obtain ⟨part, hat, htext⟩ := hfits.hasText_of_inText hein
  exact hg.not_hasText (List.mem_of_getElem? hat) htext

/-! ### What happens on account of a token -/

/-- **What happens on account of a token.**  A word or a number is offered once, when it is complete; a run of other
characters is offered in pieces; any other character is reported. -/
inductive Token.Covers : Token → List Event → Prop
  | whole {p : Phrase} {taken : Bool} (hkind : p.kind ≠ .chars) : Covers (.phrase p) [.offer p true taken]
  | pieces {p : Phrase} {offers : List (Phrase × Bool × Bool)} (hkind : p.kind = .chars)
      (h : p.Consists (offers.map Prod.fst)) : Covers (.phrase p) (offers.map fun x => .offer x.1 x.2.1 x.2.2)
  | unknown {span : Span} {ch : Char} : Covers (.unknown span ch) [.unknown span ch]

namespace Token.Covers

variable {p : Phrase} {must taken : Bool} {more : List Char} {events : List Event}

theorem one (hkind : p.kind = .chars) (hne : p.text ≠ "") : Covers (.phrase p) [.offer p must taken] := by
  have hpieces : p.Consists ([(p, must, taken)].map Prod.fst) := .whole hne
  exact .pieces hkind hpieces

theorem cons (hkind : p.kind = .chars) (hne : p.text ≠ "")
    (h : Covers (.phrase (.read .chars p.span.stop (String.ofList more))) events) :
    Covers (.phrase (p.extend more)) (.offer p must taken :: events) := by
  cases h with
  | whole hwhole => exact absurd rfl hwhole
  | @pieces _ offers _ h =>
    rw [← hkind] at h
    have hpieces : (p.extend more).Consists (((p, must, taken) :: offers).map Prod.fst) := h.extend hne
    have hkind' : (p.extend more).kind = .chars := hkind
    exact .pieces hkind' hpieces

end Token.Covers

/-- **The events of the journal that matter are those on account of the tokens**, in order.  Only other characters are
ever offered before they are complete. -/
structure Covered (tokens : List Token) (log : List Event) : Prop where
  groups : ∃ groups, log.filter Event.leaves = groups.flatten ∧ List.Forall₂ Token.Covers tokens groups
  complete : ∀ p must taken, .offer p must taken ∈ log → p.kind ≠ .chars → must = true

namespace Covered

variable {k : CharClasses} {tokens : List Token} {log : List Event} {p : Phrase} {must taken : Bool} {c : Cursor}
  {rest : List Char}

theorem nil : Covered [] [] := ⟨⟨[], rfl, .nil⟩, by simp⟩

theorem complete_cons (h : Covered tokens log) (hmust : p.kind ≠ .chars → must = true) :
    ∀ p' must' taken', .offer p' must' taken' ∈ Event.offer p must taken :: log → p'.kind ≠ .chars → must' = true := by
  intro p' must' taken' hmem
  rcases List.mem_cons.mp hmem with he | hmem
  · cases he
    exact hmust
  · exact h.complete p' must' taken' hmem

theorem skip (hkind : p.kind = .chars) (h : Covered tokens log) : Covered tokens (.offer p false false :: log) := by
  obtain ⟨groups, heq, hcovers⟩ := h.groups
  exact ⟨⟨groups, heq, hcovers⟩, h.complete_cons fun hne => absurd hkind hne⟩

theorem unknown {span : Span} {ch : Char} (h : Covered tokens log) :
    Covered (.unknown span ch :: tokens) (.unknown span ch :: log) := by
  obtain ⟨groups, heq, hcovers⟩ := h.groups
  refine ⟨⟨[.unknown span ch] :: groups, congrArg (_ :: ·) heq, hcovers.cons .unknown⟩, ?_⟩
  intro p must taken hmem
  rcases List.mem_cons.mp hmem with he | hmem
  · cases he
  · exact h.complete p must taken hmem

theorem phrase (hne : p.text ≠ "") (h : Covered tokens log) :
    Covered (.phrase p :: tokens) (.offer p true taken :: log) := by
  obtain ⟨groups, heq, hcovers⟩ := h.groups
  refine ⟨⟨[.offer p true taken] :: groups, congrArg (_ :: ·) heq, hcovers.cons ?_⟩, h.complete_cons fun _ => rfl⟩
  by_cases hkind : p.kind = .chars
  · exact .one hkind hne
  · exact .whole hkind

/-- A piece of a run of other characters is offered, and what follows is the rest of the run or no part of it. -/
theorem piece (hkind : p.kind = .chars) (hne : p.text ≠ "") (hleaves : (must || taken) = true)
    (h : Covered (k.lex p.span.stop rest) log) :
    Covered (k.lexFrom (some p) p.span.stop rest) (.offer p must taken :: log) := by
  have hfilter : (Event.offer p must taken :: log).filter Event.leaves =
      .offer p must taken :: log.filter Event.leaves := List.filter_cons_of_pos hleaves
  obtain ⟨groups, heq, hcovers⟩ := h.groups
  refine ⟨?_, h.complete_cons fun hother => absurd hkind hother⟩
  rcases k.lexFrom_run hkind p.span.stop rest with hends | ⟨more, tokens, hlex, hfrom⟩
  · rw [hends]
    exact ⟨[.offer p must taken] :: groups, by rw [hfilter, heq]; rfl, hcovers.cons (.one hkind hne)⟩
  · rw [hlex] at hcovers
    rw [hfrom]
    cases hcovers with
    | @cons _ first _ others hfirst hothers =>
      exact ⟨(.offer p must taken :: first) :: others, by rw [hfilter, heq]; rfl, .cons (hfirst.cons hkind hne) hothers⟩

/-! Of what happens on account of a token, words, numbers, other characters and unknown ones can be told apart. -/

/-- What is seen of each event is what is seen of each token. -/
theorem filterMap_flatten {α : Type} {f : Event → Option α} {h : Token → Option α} {groups : List (List Event)}
    (hcovers : List.Forall₂ Token.Covers tokens groups)
    (hgroup : ∀ t group, t.Covers group → group.filterMap f = (h t).toList) :
    groups.flatten.filterMap f = tokens.filterMap h := by
  induction hcovers with
  | nil => rfl
  | @cons t group tokens groups hfirst _ ih =>
    rw [List.flatten_cons, List.filterMap_append, ih, hgroup t group hfirst, List.filterMap_cons]
    cases h t <;> rfl

/-- **Every word and number is offered once, when it is complete**, and no others are. -/
theorem lexemes (h : Covered tokens log) :
    log.filterMap Event.lexeme? = (tokens.filterMap Token.lexeme?).map (·, true) := by
  obtain ⟨groups, heq, hcovers⟩ := h.groups
  have hleaves : log.filterMap Event.lexeme? = (log.filter Event.leaves).filterMap Event.lexeme? := by
    rw [List.filterMap_filter]
    refine List.filterMap_congr fun e he => ?_
    cases e with
    | unknown => rfl
    | offer p must taken =>
      by_cases hkind : p.kind = .chars
      · simp [Event.lexeme?, hkind]
      · have hmust := h.complete p must taken he hkind
        simp [Event.leaves, hmust]
  rw [hleaves, heq, List.map_filterMap]
  refine filterMap_flatten hcovers fun t group hgroup => ?_
  cases hgroup with
  | whole hkind => simp [Event.lexeme?, Token.lexeme?, hkind]
  | unknown => rfl
  | @pieces p offers hkind hconsists =>
    have hnone : ∀ x ∈ offers, x.1.kind = .chars := fun x hx => by
      rw [hconsists.kind_eq x.1 (List.mem_map_of_mem hx), hkind]
    simp only [Token.lexeme?, hkind, if_true, Option.map_none, Option.toList_none, List.filterMap_map,
      List.filterMap_eq_nil_iff]
    intro x hx
    simp [Event.lexeme?, hnone x hx]

/-- **The unknown characters are those of the text.** -/
theorem unknowns (h : Covered tokens log) : log.filterMap Event.report? = tokens.filterMap Token.report? := by
  obtain ⟨groups, heq, hcovers⟩ := h.groups
  have hleaves : log.filterMap Event.report? = (log.filter Event.leaves).filterMap Event.report? := by
    rw [List.filterMap_filter]
    refine List.filterMap_congr fun e _ => ?_
    cases e with
    | unknown => rfl
    | offer p must taken => simp [Event.report?]
  rw [hleaves, heq]
  refine filterMap_flatten hcovers fun t group hgroup => ?_
  cases hgroup with
  | whole | unknown => rfl
  | pieces =>
    simp only [Token.report?, Option.toList_none, List.filterMap_map, List.filterMap_eq_nil_iff]
    exact fun x _ => rfl

/-- **What leaves the run of other characters makes up the runs of the text**, in order. -/
theorem runs (h : Covered tokens log) : ∃ pieces, (log.filter Event.leaves).filterMap Event.run? = pieces.flatten ∧
    List.Forall₂ Phrase.Consists (tokens.filterMap Token.run?) pieces := by
  obtain ⟨groups, heq, hcovers⟩ := h.groups
  rw [heq]
  clear heq h
  induction hcovers with
  | nil => exact ⟨[], rfl, .nil⟩
  | @cons t group tokens groups hfirst _ ih =>
    obtain ⟨pieces, heq, hconsists⟩ := ih
    rw [List.flatten_cons, List.filterMap_append, heq, List.filterMap_cons]
    cases hfirst with
    | whole hkind => exact ⟨pieces, by simp [Event.run?, hkind], by simpa [Token.run?, hkind] using hconsists⟩
    | unknown => exact ⟨pieces, rfl, hconsists⟩
    | @pieces p offers hkind hcut =>
      have hkinds : ∀ x ∈ offers, x.1.kind = .chars := fun x hx => by
        rw [hcut.kind_eq x.1 (List.mem_map_of_mem hx), hkind]
      have hrun : (offers.map fun x => Event.offer x.1 x.2.1 x.2.2).filterMap Event.run? = offers.map Prod.fst := by
        rw [List.filterMap_map, ← List.filterMap_eq_map]
        exact List.filterMap_congr fun x hx => if_pos (hkinds x hx)
      refine ⟨offers.map Prod.fst :: pieces, by rw [hrun]; rfl, ?_⟩
      rw [show (Token.phrase p).run? = some p from if_pos hkind]
      exact .cons hcut hconsists

end Covered

/-! ### What happens while a text is read -/

namespace Run

variable {g : Grammar} {s : Settings} {r : Run} {kind : PhraseKind} {ch : Char} {rest : List Char}

/-- What happens while the rest of a text is read, where nothing is given back. -/
def logOn (g : Grammar) (s : Settings) : Run → List Char → List Event
  | r, [] => r.flushLog g s
  | r, ch :: rest => r.stepLog g s ch ++ logOn g s (r.step g s ch).1 rest

/-- Where the run stands: the tree conforms to the grammar, and the phrase being read ends at the cursor. -/
structure Stands (g : Grammar) (r : Run) : Prop where
  conforms : r.tree.Conforms g
  stop : ∀ p, r.buffer? = some p → p.span.stop = r.cursor
  text_ne : ∀ p, r.buffer? = some p → p.text ≠ ""

namespace Stands

theorem resolve (h : Stands g r) (s : Settings) (p : Phrase) (must : Bool) : Stands g (r.resolve g s p must).1 := by
  have hplaces := resolve_places g s r p must
  refine ⟨resolve_conforms h.conforms s p must, ?_, ?_⟩
  · rw [hplaces.buffer, hplaces.cursor]
    exact h.stop
  · rw [hplaces.buffer]
    exact h.text_ne

theorem clear (h : Stands g r) : Stands g { r with buffer? := none } :=
  ⟨h.conforms, fun _ h => (by cases h), fun _ h => (by cases h)⟩

theorem grown_stop (h : Stands g r) (kind : PhraseKind) (ch : Char) :
    (r.grown kind ch).span.stop = r.cursor.advance ch := by
  unfold grown
  cases hbuffer : r.buffer? with
  | none => rfl
  | some p => rw [Phrase.stop_push, h.stop p hbuffer]

theorem hold (h : Stands g r) : Stands g (r.hold kind ch) := by
  refine ⟨h.conforms, fun p hp => ?_, fun p hp => ?_⟩
  · cases hp
    exact h.grown_stop kind ch
  · cases hp
    exact grown_text_ne r kind ch

theorem push (h : Stands g r) : Stands g (r.push g s kind ch) := by
  by_cases hkind : kind = .chars
  · subst hkind
    rw [push_chars]
    split
    · exact (h.hold.resolve s _ _).clear
    · exact h.hold.resolve s _ _
  · rw [push_eq_of_ne hkind]
    exact h.hold

theorem flush (h : Stands g r) : Stands g (r.flush g s) := by
  cases hbuffer : r.buffer? with
  | none => rwa [show r.flush g s = r by simp only [Run.flush, hbuffer]]
  | some p =>
    rw [flush_of_some hbuffer]
    exact (h.resolve s p true).clear

theorem skip (h : Stands g r) (hbuffer : r.buffer? = none) : Stands g (r.skip ch) := by
  have hnone : ∀ p, r.buffer? ≠ some p := by simp [hbuffer]
  unfold Run.skip
  split
  · exact ⟨h.conforms, fun p hp => absurd hp (hnone p), fun p hp => absurd hp (hnone p)⟩
  · exact ⟨h.conforms, fun p hp => absurd hp (hnone p), fun p hp => absurd hp (hnone p)⟩

theorem openWith (h : Stands g r) (hbuffer : r.buffer? = none) : Stands g (r.openWith g s ch) := by
  unfold Run.openWith
  split
  · exact h.push
  · exact h.skip hbuffer

theorem inText (h : Stands g r) (hg : g.Textless) : r.inText = false := hg.inText h.conforms r.active

theorem step (h : Stands g r) (hg : g.Textless) (s : Settings) (ch : Char) :
    Stands g (r.step g s ch).1 ∧ (r.step g s ch).2 = [] := by
  unfold Run.step
  rw [h.inText hg]
  cases hbuffer : r.buffer? with
  | none => exact ⟨h.openWith hbuffer, rfl⟩
  | some p =>
    dsimp only
    split
    · next hin => cases hin
    · split
      · exact ⟨h.push, rfl⟩
      · rw [h.flush.inText hg]
        exact ⟨h.flush.openWith buffer_flush, rfl⟩

end Stands

theorem cursor_push : (r.push g s kind ch).cursor = r.cursor.advance ch := by
  by_cases hkind : kind = .chars
  · subst hkind
    have hcursor := (resolve_places g s (r.hold .chars ch) (r.grown .chars ch) false).cursor
    rw [push_chars]
    split <;> exact hcursor
  · rw [push_eq_of_ne hkind]
    rfl

section Covers

variable {log : List Event}

theorem covers_push (h : Stands g r) (hkinds : ∀ p, r.buffer? = some p → p.kind = kind)
    (hrest : Covered (g.classes.lexFrom (r.push g s kind ch).buffer? (r.push g s kind ch).cursor rest) log) :
    Covered (g.classes.lexFrom (some (r.grown kind ch)) (r.cursor.advance ch) rest) (r.pushLog g s kind ch ++ log) := by
  have hgrown : (r.grown kind ch).kind = kind := by
    unfold grown
    cases hbuffer : r.buffer? with
    | none => rfl
    | some p => exact hkinds p hbuffer
  rw [cursor_push] at hrest
  by_cases hkind : kind = .chars
  · subst hkind
    rw [pushLog, if_pos rfl]
    cases htaken : ((r.hold .chars ch).resolve g s (r.grown .chars ch) false).2 with
    | true =>
      -- a piece is taken, and what follows is read from where it ends
      have hnone : (r.push g s .chars ch).buffer? = none := by rw [push_chars, if_pos htaken]
      rw [hnone, ← h.grown_stop .chars ch] at hrest
      rw [← h.grown_stop .chars ch]
      exact hrest.piece hgrown (grown_text_ne r .chars ch) rfl
    | false =>
      have hsome : (r.push g s .chars ch).buffer? = some (r.grown .chars ch) := by
        rw [push_chars, if_neg (by simp [htaken])]
        exact (resolve_places g s (r.hold .chars ch) (r.grown .chars ch) false).buffer
      rw [hsome] at hrest
      exact hrest.skip hgrown
  · have hsome : (r.push g s kind ch).buffer? = some (r.grown kind ch) := by rw [push_eq_of_ne hkind]; rfl
    rw [hsome] at hrest
    rw [pushLog, if_neg hkind]
    exact hrest

theorem covers_open (h : Stands g r) (hbuffer : r.buffer? = none)
    (hrest : Covered (g.classes.lexFrom (r.openWith g s ch).buffer? (r.openWith g s ch).cursor rest) log) :
    Covered (g.classes.lex r.cursor (ch :: rest)) (r.openLog g s ch ++ log) := by
  unfold openLog
  unfold openWith at hrest
  cases hstarts : g.classes.startingKind ch with
  | some kind =>
    have hgrown : r.grown kind ch = .single kind r.cursor ch := by simp only [grown, hbuffer]
    rw [hstarts] at hrest
    rw [CharClasses.lex_of_opens hstarts, ← hgrown]
    exact covers_push h (by simp [hbuffer]) hrest
  | none =>
    rw [hstarts] at hrest
    dsimp only [skip, skipLog] at hrest ⊢
    cases hblank : Text.isBlank ch with
    | true =>
      rw [hblank, if_pos rfl] at hrest
      rw [CharClasses.lex_of_blank hstarts hblank, if_pos rfl, List.nil_append]
      simpa only [past, hbuffer, CharClasses.lexFrom_none] using hrest
    | false =>
      rw [hblank, if_neg (by simp)] at hrest
      rw [CharClasses.lex_of_unknown hstarts hblank, if_neg (by simp)]
      simp only [past, report, hbuffer, CharClasses.lexFrom_none] at hrest
      exact hrest.unknown

/-- **A step reads its character on account of the tokens.** -/
theorem covers_step (hg : g.Textless) (h : Stands g r)
    (hrest : Covered (g.classes.lexFrom (r.step g s ch).1.buffer? (r.step g s ch).1.cursor rest) log) :
    Covered (g.classes.lexFrom r.buffer? r.cursor (ch :: rest)) (r.stepLog g s ch ++ log) := by
  unfold stepLog
  unfold step at hrest
  rw [h.inText hg] at hrest ⊢
  cases hbuffer : r.buffer? with
  | none =>
    rw [hbuffer] at hrest
    exact covers_open h hbuffer hrest
  | some p =>
    rw [hbuffer] at hrest
    cases hcontinues : g.classes.continues p.kind ch with
    | true =>
      have hgrown : r.grown p.kind ch = p.push ch := by simp only [grown, hbuffer]
      have hkinds : ∀ q, r.buffer? = some q → q.kind = p.kind := by
        intro q hq
        cases hbuffer.symm.trans hq
        rfl
      simp only [hcontinues] at hrest
      rw [CharClasses.lexFrom_of_continues hcontinues, ← hgrown]
      simpa [hcontinues] using covers_push h hkinds hrest
    | false =>
      -- the phrase being read is complete, and the character is read without it
      have hcursor : (r.flush g s).cursor = r.cursor := by
        rw [flush_of_some hbuffer]
        exact (resolve_places g s r p true).cursor
      have hflush : Stands g (r.flush g s) := h.flush
      simp only [hcontinues, hflush.inText hg] at hrest
      have hopened := covers_open hflush buffer_flush hrest
      rw [hcursor] at hopened
      rw [CharClasses.lexFrom_of_ends hcontinues]
      simp only [hcontinues, hflush.inText hg, flushLog, hbuffer]
      exact hopened.phrase (h.text_ne p hbuffer)

/-- **What happens while the rest of a text is read is on account of its tokens**, wherever the run stands. -/
theorem covers_logOn (hg : g.Textless) (s : Settings) (rest : List Char) (h : Stands g r) :
    Covered (g.classes.lexFrom r.buffer? r.cursor rest) (r.logOn g s rest) := by
  induction rest generalizing r with
  | nil =>
    unfold logOn flushLog
    cases hbuffer : r.buffer? with
    | none =>
      rw [CharClasses.lexFrom_none, CharClasses.lex_nil]
      exact .nil
    | some p =>
      rw [CharClasses.lexFrom_some_nil]
      exact Covered.nil.phrase (h.text_ne p hbuffer)
  | cons ch rest ih => exact covers_step hg h (ih (h.step hg s ch).1)

/-- Without text parts, reading characters comes to an end, and its journal is what happens step by step. -/
theorem readAllLog_of_textless (hg : g.Textless) (s : Settings) (depth : Nat) (log : List Event) (chars : List Char)
    (h : Stands g r) :
    ∃ x, readAllLog g s (depth + 1) (r, log) chars = some x ∧
      x.2 ++ x.1.flushLog g s = log ++ r.logOn g s chars := by
  induction chars generalizing r log with
  | nil => exact ⟨(r, log), rfl, rfl⟩
  | cons ch chars ih =>
    obtain ⟨hstands, hnone⟩ := h.step hg s ch
    obtain ⟨x, hread, hlog⟩ := ih (log ++ r.stepLog g s ch) hstands
    refine ⟨x, ?_, by rw [hlog, logOn, List.append_assoc]⟩
    rw [readAllLog_cons, readCharLog_succ, hnone]
    exact hread

end Covers

end Run

/-- **A text is cut up as its character classes say.**  Where no rule has a text part, reading comes to an end, and its
journal is on account of the tokens of the text, in order.  In particular, the words and numbers that are offered are
those of the text, each once and as one that has to be placed; the unknown characters that are reported are those of the
text; and the other characters that leave the run, taken or given up, make up the runs of the text.

The journal is that of the run: placing its phrases and reporting its characters, one after the other, leads to the
result, and every offer is counted. -/
theorem Grammar.journal_segments {g : Grammar} (hg : g.Textless) (s : Settings) (text : List Char) :
    ∃ r log, g.journal? s text = some (r, log) ∧ g.read? s text = some r ∧
      Run.Plays g s log r ∧ r.counters.offered = log.countP Event.isOffer ∧
      Covered (g.classes.lex .start text) log ∧
      log.filterMap Event.lexeme? = ((g.classes.lex .start text).filterMap Token.lexeme?).map (·, true) ∧
      r.reports.reverse.filter Diagnostic.isUnknown = (g.classes.lex .start text).filterMap Token.report? ∧
      ∃ pieces, (log.filter Event.leaves).filterMap Event.run? = pieces.flatten ∧
        List.Forall₂ Phrase.Consists ((g.classes.lex .start text).filterMap Token.run?) pieces := by
  have hstart : Run.Stands g {} := ⟨Tree.root_conforms g, fun _ h => (by cases h), fun _ h => (by cases h)⟩
  have hcovered := Run.covers_logOn hg s text hstart
  obtain ⟨x, hread, hlog⟩ := Run.readAllLog_of_textless hg s (text.length + 1099511627775) [] text hstart
  have hjournal : g.journal? s text = some (x.1.finish g s, x.2 ++ x.1.flushLog g s) := by
    unfold journal? allowance
    rw [hread]
    rfl
  rw [List.nil_append] at hlog
  rw [hlog] at hjournal
  have hplays := Grammar.journal?_plays hjournal
  have hresult := g.journal?_fst s text
  rw [hjournal] at hresult
  refine ⟨_, _, hjournal, hresult.symm, hplays, hplays.offered, hcovered, hcovered.lexemes, ?_, hcovered.runs⟩
  rw [hplays.unknown_reports]
  exact hcovered.unknowns

namespace Stops

/-- Names, each with a stop. -/
def rules : List (Rule RuleId) := [⟨topLevelName, [.choice { key := "items", candidates := [1] }]⟩,
  ⟨"Item", [.simple (.identifier "name"), .simple (.keyword ";")]⟩]

theorem sound_rules : Sound rules { key := "global", candidates := [], optional := true } {} := by
  constructor <;> decide +kernel

def grammar : Grammar := ⟨rules, _, _, sound_rules⟩

/-- A name with two stops, of which only the first is taken, and an unknown character. -/
def text : List Char := ['a', ';', ';', 'é']

/-- The name is offered once, the stops leave the run one by one, and the unknown character is reported. -/
theorem cut_stops : grammar.Textless ∧ ∃ r log, grammar.journal? {} text = some (r, log) ∧
    grammar.read? {} text = some r ∧ log.filterMap Event.lexeme? = [(.single .word .start 'a', true)] ∧
    r.reports.reverse.filter Diagnostic.isUnknown = [.unknown ⟨⟨1, 4⟩, ⟨1, 5⟩⟩ 'é'] ∧
    ∃ pieces, (log.filter Event.leaves).filterMap Event.run? = pieces.flatten ∧
      List.Forall₂ Phrase.Consists [⟨";;", .chars, ⟨⟨1, 2⟩, ⟨1, 4⟩⟩⟩] pieces := by
  have htextless : grammar.Textless := by decide +kernel
  have hlexemes : (grammar.classes.lex .start text).filterMap Token.lexeme? = [.single .word .start 'a'] := by
    decide +kernel
  have hreports : (grammar.classes.lex .start text).filterMap Token.report? = [.unknown ⟨⟨1, 4⟩, ⟨1, 5⟩⟩ 'é'] := by
    decide +kernel
  have hruns : (grammar.classes.lex .start text).filterMap Token.run? = [⟨";;", .chars, ⟨⟨1, 2⟩, ⟨1, 4⟩⟩⟩] := by
    decide +kernel
  obtain ⟨r, log, hjournal, hread, -, -, -, hwords, hunknown, hcut⟩ := Grammar.journal_segments htextless {} text
  rw [hlexemes] at hwords
  rw [hreports] at hunknown
  rw [hruns] at hcut
  exact ⟨htextless, r, log, hjournal, hread, hwords, hunknown, hcut⟩

end Stops

end PhraseTree
