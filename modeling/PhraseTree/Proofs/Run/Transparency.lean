import PhraseTree.Proofs.Run.Comments
import PhraseTree.Proofs.Run.Lockstep
import PhraseTree.Proofs.Run.Spacing

/-!
# Comments are transparent

Two runs are compared.  Up to some state they are one and the same run; from there on both read the same text, but the
second has read a comment in between.  So its active instance may be that comment, and its tree holds one instance more.

* `Run.Agrees σ r₀ a b` — without comments the trees are the same, and so are the reports, but for places;
* `Run.Parallel g rule σ r₀ a b` — so it is, and both runs read on alike: the seats of their active instances are the
  same, and in a comment both have taken the same;
* `Run.Parallel.resolve`, `Run.Parallel.readText`: this is kept where a phrase is placed and where a text takes a
  character; so both runs go on in lockstep (`Run.parallel_lockstep`);
* `Run.Parallel.finish`: the results agree.

`Grammar.comments_transparent`: a comment moves what follows, and does nothing else.
-/

namespace PhraseTree

/-! ### Reports that match -/

/-- The same reason.  For an unexpected phrase other instances may have been asked. -/
inductive Reason.Matches : Reason → Reason → Prop
  | unknownCharacter : Matches .unknownCharacter .unknownCharacter
  | unfinishedRule (place : Place) : Matches (.unfinishedRule place) (.unfinishedRule place)
  | unexpectedPhrase (place place' : Place) : Matches (.unexpectedPhrase place) (.unexpectedPhrase place')

/-- The same report, about something read elsewhere; other instances may have been asked. -/
structure Diagnostic.Matches (σ : Shift) (d d' : Diagnostic) : Prop where
  span : d.span.Shifted σ d'.span
  content : d'.content = d.content
  reason : d.reason.Matches d'.reason

/-- Both lists hold `old` and later reports that match, in the same order. -/
def Diagnostic.MatchAfter (σ : Shift) (old reports reports' : List Diagnostic) : Prop :=
  ∃ new new', reports = new ++ old ∧ reports' = new' ++ old ∧ List.Forall₂ (Diagnostic.Matches σ) new new'

/-- **The same result, but for comments.**  Since both runs left `r₀` they have read the same elsewhere in the text. -/
structure Run.Agrees (σ : Shift) (r₀ a b : Run) : Prop where
  tree : a.tree.pruned.Shifted σ r₀.tree.pruned.Records b.tree.pruned
  reports : Diagnostic.MatchAfter σ r₀.reports a.reports b.reports

/-- The phrase begins with a character that begins phrases of its kind. -/
def Phrase.Begins (k : CharClasses) (p : Phrase) : Prop :=
  ∃ ch more, p.text.toList = ch :: more ∧ k.startingKind ch = some p.kind

/-- **The same run, but for comments.** -/
structure Run.Parallel (g : Grammar) (rule : RuleId) (σ : Shift) (r₀ a b : Run) : Prop extends Run.Agrees σ r₀ a b where
  seat : b.seat = a.seat
  note : b.note? = a.note?
  buffer : Option.Rel (Phrase.Shifted σ) a.buffer? b.buffer?
  cursor : σ.Carries a.cursor b.cursor
  begins : ∀ p, a.buffer? = some p → p.Begins g.classes
  commented : a.tree.Commented g rule a.active
  commented' : b.tree.Commented g rule b.active

section Reports

variable {σ : Shift} {g : Grammar} {s : Settings} {a b : Run} {p q : Phrase} {d d' : Diagnostic}
  {old reports reports' : List Diagnostic}

theorem Diagnostic.MatchAfter.cons (h : Diagnostic.MatchAfter σ old reports reports') (hd : d.Matches σ d') :
    Diagnostic.MatchAfter σ old (d :: reports) (d' :: reports') := by
  obtain ⟨new, new', rfl, rfl, hrel⟩ := h
  exact ⟨d :: new, d' :: new', rfl, rfl, .cons hd hrel⟩

/-- What is left behind is reported alike where the same instance is unfinished. -/
theorem Diagnostic.MatchAfter.reportLeaving (h : Diagnostic.MatchAfter σ old a.reports b.reports) (hp : p.Shifted σ q)
    (must taken : Bool) {l l' : Leaving} (hl : l'.unfinished? = l.unfinished?) :
    Diagnostic.MatchAfter σ old (Run.reportLeaving g s a p must taken l).reports
      (Run.reportLeaving g s b q must taken l').reports := by
  have hmatches : ∀ {reason reason' : Reason} (trail trail' : List Place), reason.Matches reason' →
      (Diagnostic.mk p.span p.text reason trail).Matches σ ⟨q.span, q.text, reason', trail'⟩ :=
    fun _ _ hreason => ⟨hp.span, hp.text, hreason⟩
  -- the phrase itself may be reported first
  have hphrase : ∀ (cond : Bool) (place place' : Place) (trail trail' : List Place), Diagnostic.MatchAfter σ old
      (if cond then a.report ⟨p.span, p.text, .unexpectedPhrase place, trail⟩ else a).reports
      (if cond then b.report ⟨q.span, q.text, .unexpectedPhrase place', trail'⟩ else b).reports := by
    intro cond place place' trail trail'
    split
    · exact h.cons (hmatches _ _ (.unexpectedPhrase _ _))
    · exact h
  unfold Run.reportLeaving
  rw [hl]
  cases l.unfinished? with
  | none => exact hphrase _ _ _ _ _
  | some place =>
    dsimp only
    split
    · exact (hphrase _ _ _ _ _).cons (hmatches _ _ (.unfinishedRule place))
    · exact hphrase _ _ _ _ _

end Reports

namespace Run

variable {σ : Shift} {g : Grammar} {s : Settings} {rule : RuleId} {x : TextPart} {start : String} {r r₀ a a' b b' : Run}
  {p q : Phrase} {must : Bool} {ch : Char} {kind : PhraseKind}

/-! ### Phrases that begin -/

theorem Feeds.begins (h : r.Feeds g kind ch) (hbegins : ∀ p, r.buffer? = some p → p.Begins g.classes) :
    (r.grown kind ch).Begins g.classes := by
  unfold grown
  rcases h with ⟨hbuffer, hstarts⟩ | ⟨p, hbuffer, -, -⟩
  · rw [hbuffer]
    exact ⟨ch, [], by simp [Phrase.single], hstarts⟩
  · rw [hbuffer]
    obtain ⟨first, more, htext, hstarts⟩ := hbegins p hbuffer
    exact ⟨first, more ++ [ch], by simp [Phrase.push, htext], hstarts⟩

/-- The phrase that opens comments is a run of other characters. -/
theorem kind_of_begins (hg : g.Comments rule x start) (hbegins : p.Begins g.classes) (htext : p.text = start) :
    p.kind = .chars := by
  obtain ⟨ch, more, hch, hstarts⟩ := hbegins
  have hother := hg.start_other ch (by rw [← htext, hch]; exact List.mem_cons_self)
  exact Option.some.inj (hstarts.symm.trans (CharClasses.isOther_iff.mp hother))

theorem resolve_commented (hg : g.Comments rule x start) (hc : r.tree.Commented g rule r.active) (s : Settings)
    (p : Phrase) (must : Bool) :
    (r.resolve g s p must).1.tree.Commented g rule (r.resolve g s p must).1.active :=
  resolve_tree (P := fun t active => t.Commented g rule active) hc (fun ht => hc.takes hg ht) s must

namespace Parallel

theorem inText_eq (h : Parallel g rule σ r₀ a b) : b.inText = a.inText := by
  rw [Run.inText_eq h.commented, Run.inText_eq h.commented', h.seat, h.note, h.tree.inText_eq]

/-! ### Placing a phrase -/

/-- What happens aside cannot be seen in either run. -/
theorem agrees_aside (h : Parallel g rule σ r₀ a b) (ha : Aside a a') (hb : Aside b b') :
    Agrees σ r₀ a' b' ∧ b'.seat = a'.seat := by
  refine ⟨⟨?_, ?_⟩, ?_⟩
  · rw [ha.pruned, hb.pruned]
    exact h.tree
  · rw [ha.reports, hb.reports]
    exact h.reports
  · rw [ha.seat, hb.seat, h.seat]

theorem answers (h : Parallel g rule σ r₀ a b) (hp : p.Shifted σ q) :
    (a.answers g p).Along σ r₀.tree.pruned.Records (b.answers g q) := by
  have hchain : b.tree.pruned.chain b.seat = a.tree.pruned.chain a.seat := by
    unfold Tree.chain
    rw [h.seat, h.tree.ancestors_eq]
  unfold Run.answers
  rw [hchain]
  exact h.tree.offerInOrder hp g _

/-- **Outside of comments a phrase is placed alike.** -/
theorem resolve_outside (h : Parallel g rule σ r₀ a b) (hg : g.Comments rule x start) (hp : p.Shifted σ q)
    (hnote : a.note? = none) (hother : p.text = start → a.inText = true) (s : Settings) (must : Bool) :
    (b.resolve g s q must).2 = (a.resolve g s p must).2 ∧
      Agrees σ r₀ (a.resolve g s p must).1 (b.resolve g s q must).1 ∧
      (b.resolve g s q must).1.seat = (a.resolve g s p must).1.seat ∧
      (b.resolve g s q must).1.note? = (a.resolve g s p must).1.note? := by
  have hnote' : b.note? = none := h.note.trans hnote
  obtain ⟨htook, happly, r₁, l, hreports, hleaving, hresult⟩ :=
    Run.resolve_outside hg h.commented s must hnote hother
  obtain ⟨htook', happly', r₁', l', hreports', hleaving', hresult'⟩ :=
    Run.resolve_outside hg h.commented' s must hnote' (p := q) (by rwa [hp.text, h.inText_eq])
  obtain ⟨-, hrefused, htaken⟩ := h.answers (g := g) hp
  have hsame : (b.answers g q).taken?.isSome = (a.answers g p).taken?.isSome := by
    generalize (a.answers g p).taken? = k, (b.answers g q).taken? = k' at htaken
    cases htaken <;> rfl
  have hmatch : Diagnostic.MatchAfter σ r₀.reports (a.resolve g s p must).1.reports
      (b.resolve g s q must).1.reports := by
    rw [hresult, hresult', hsame]
    refine Diagnostic.MatchAfter.reportLeaving ?_ hp must _ ?_
    · rw [hreports, hreports']
      exact h.reports
    · rw [hleaving, hleaving', hrefused, h.tree.place_eq, h.tree.needsMore_eq]
  refine ⟨htook'.trans (hsame.trans htook.symm), ?_⟩
  have hplaces := resolve_places g s a p must
  have hplaces' := resolve_places g s b q must
  generalize (a.answers g p).taken? = k, (b.answers g q).taken? = k' at htaken htook htook' happly happly'
  cases htaken with
  | none =>
    obtain ⟨htree, hactive, -⟩ := hplaces.refuses htook
    obtain ⟨htree', hactive', -⟩ := hplaces'.refuses htook'
    refine ⟨⟨?_, hmatch⟩, ?_, ?_⟩
    · rw [htree, htree']
      exact h.tree
    · rw [Run.seat, Run.seat, htree, hactive, htree', hactive']
      exact h.seat
    · rw [Run.note?, Run.note?, htree, hactive, htree', hactive']
      exact h.note
  | @some y y' hy =>
    obtain ⟨id, c⟩ := y
    obtain ⟨id', c'⟩ := y'
    obtain ⟨rfl, hc⟩ := hy
    obtain ⟨htree, hseat, hs⟩ := happly id' c rfl
    obtain ⟨htree', hseat', hs'⟩ := happly' id' c' rfl
    obtain ⟨hshifted, htaker⟩ := h.tree.apply hc
    refine ⟨⟨?_, hmatch⟩, ?_, ?_⟩
    · rw [htree, htree']
      exact hshifted
    · rw [hseat, hseat', htaker]
    · rw [Run.note?, Run.note?, Tree.note?_of_stands hs, Tree.note?_of_stands hs']

/-- **A phrase is placed alike**, in a comment and outside. -/
theorem resolve (h : Parallel g rule σ r₀ a b) (hg : g.Comments rule x start) (hp : p.Shifted σ q)
    (hkind : p.text = start → a.inText = false → p.kind = .chars) (s : Settings) (must : Bool) :
    (b.resolve g s q must).2 = (a.resolve g s p must).2 ∧
      Parallel g rule σ r₀ (a.resolve g s p must).1 (b.resolve g s q must).1 := by
  have hplaces := resolve_places g s a p must
  have hplaces' := resolve_places g s b q must
  obtain ⟨htook, hagrees, hseat, hnote⟩ : (b.resolve g s q must).2 = (a.resolve g s p must).2 ∧
      Agrees σ r₀ (a.resolve g s p must).1 (b.resolve g s q must).1 ∧
      (b.resolve g s q must).1.seat = (a.resolve g s p must).1.seat ∧
      (b.resolve g s q must).1.note? = (a.resolve g s p must).1.note? := by
    cases hnote : a.note? with
    | some v =>
      obtain ⟨htook, haside, hafter, -⟩ := resolve_note hg h.commented s p must hnote
      obtain ⟨htook', haside', hafter', -⟩ := resolve_note hg h.commented' s q must (h.note.trans hnote)
      obtain ⟨hagrees, hseat⟩ := h.agrees_aside haside haside'
      exact ⟨htook'.trans htook.symm, hagrees, hseat, by rw [hafter, hafter', hp.text]⟩
    | none =>
      by_cases hstart : p.text = start ∧ a.inText = false
      · obtain ⟨htext, hin⟩ := hstart
        have hchars := hkind htext hin
        obtain ⟨htook, haside, hafter⟩ := resolve_start hg h.commented s must hin hchars htext
        obtain ⟨htook', haside', hafter'⟩ := resolve_start hg h.commented' s must (h.inText_eq.trans hin)
          (hp.kind.trans hchars) (hp.text.trans htext)
        obtain ⟨hagrees, hseat⟩ := h.agrees_aside haside haside'
        exact ⟨htook'.trans htook.symm, hagrees, hseat, hafter'.trans hafter.symm⟩
      · exact h.resolve_outside hg hp hnote (fun htext => by simpa using not_and.mp hstart htext) s must
  refine ⟨htook, hagrees, hseat, hnote, ?_, ?_, ?_, resolve_commented hg h.commented s p must,
    resolve_commented hg h.commented' s q must⟩
  · rw [hplaces.buffer, hplaces'.buffer]
    exact h.buffer
  · rw [hplaces.cursor, hplaces'.cursor]
    exact h.cursor
  · rw [hplaces.buffer]
    exact h.begins

/-! ### Reading -/

theorem clear (h : Parallel g rule σ r₀ a b) :
    Parallel g rule σ r₀ { a with buffer? := none } { b with buffer? := none } :=
  { h with buffer := .none, begins := fun _ hp => nomatch hp }

theorem past (h : Parallel g rule σ r₀ a b) (ch : Char) : Parallel g rule σ r₀ (a.past ch) (b.past ch) :=
  { h with cursor := (h.cursor.advance ch).carries }

theorem hold (h : Parallel g rule σ r₀ a b) (hfeeds : a.Feeds g kind ch) :
    Parallel g rule σ r₀ (a.hold kind ch) (b.hold kind ch) :=
  { h with
    buffer := .some (grown_shifted h.buffer h.cursor kind ch)
    cursor := (h.cursor.advance ch).carries
    begins := fun p hp => by
      cases hp
      exact hfeeds.begins h.begins }

theorem push (h : Parallel g rule σ r₀ a b) (hg : g.Comments rule x start) (hfeeds : a.Feeds g kind ch)
    (s : Settings) : Parallel g rule σ r₀ (a.push g s kind ch) (b.push g s kind ch) := by
  have hheld := h.hold hfeeds
  by_cases hkind : kind = .chars
  · subst hkind
    have hbegins := hfeeds.begins h.begins
    obtain ⟨htook, hresolve⟩ := hheld.resolve hg (grown_shifted h.buffer h.cursor .chars ch)
      (fun htext _ => kind_of_begins hg hbegins htext) s false
    rw [push_chars, push_chars, htook]
    split
    · exact hresolve.clear
    · exact hresolve
  · rw [push_eq_of_ne hkind, push_eq_of_ne hkind]
    exact hheld

theorem skip (h : Parallel g rule σ r₀ a b) (ch : Char) : Parallel g rule σ r₀ (a.skip ch) (b.skip ch) := by
  have hpast := h.past ch
  unfold Run.skip
  split
  · exact hpast
  · exact { hpast with
      reports := hpast.reports.cons ⟨⟨h.cursor, (h.cursor.advance ch).carries⟩, rfl, .unknownCharacter⟩ }

theorem flush (h : Parallel g rule σ r₀ a b) (hg : g.Comments rule x start) (s : Settings) :
    Parallel g rule σ r₀ (a.flush g s) (b.flush g s) := by
  have hbuffer := h.buffer
  have hbegins := h.begins
  unfold Run.flush
  generalize a.buffer? = p?, b.buffer? = q? at hbuffer hbegins
  cases hbuffer with
  | none => exact h
  | some hp => exact (h.resolve hg hp (fun htext _ => kind_of_begins hg (hbegins _ rfl) htext) s true).2.clear

/-- What is given back is the same, and it is read again elsewhere. -/
theorem giveBack (h : Parallel g rule σ r₀ a b) (hs : a.tree.stands a.active = true)
    (hs' : b.tree.stands b.active = true)
    (hlast : Option.Rel (Entry.Later σ (r₀.tree.pruned.Records a.seat)) (a.tree.pruned.last? a.seat)
      (b.tree.pruned.last? a.seat)) :
    b.giveBack.2 = a.giveBack.2 ∧ Parallel g rule σ r₀ a.giveBack.1 b.giveBack.1 := by
  have hseat : a.seat = a.tree.rank a.active := by rw [Run.seat, Tree.seat_of_stands hs]
  have hseat' : a.seat = b.tree.rank b.active := by rw [← h.seat, Run.seat, Tree.seat_of_stands hs']
  have hlt := h.commented.arranged.active_lt
  have hlt' := h.commented'.arranged.active_lt
  obtain ⟨n, hn⟩ := Tree.node?_of_lt hlt
  obtain ⟨n', hn'⟩ := Tree.node?_of_lt hlt'
  obtain ⟨hpruned, hrank, hafter⟩ := Tree.pruned_settle h.commented.arranged hn hs
  obtain ⟨hpruned', hrank', hafter'⟩ := Tree.pruned_settle h.commented'.arranged hn' hs'
  have hback : Option.Rel σ.Rereads (a.tree.toReread? a.active) (b.tree.toReread? b.active) := by
    rw [← Tree.toReread?_pruned hs hlt, ← Tree.toReread?_pruned hs' hlt', ← hseat, ← hseat']
    exact Tree.Shifted.toReread? hlast
  have hsettle := h.tree.settle hlast
  unfold Run.giveBack
  generalize a.tree.toReread? a.active = back, b.tree.toReread? b.active = back' at hback
  cases hback with
  | none => exact ⟨rfl, h⟩
  | some hx =>
    refine ⟨congrArg String.toList hx.1, { h with
      tree := ?_, seat := ?_, note := ?_, cursor := hx.2, commented := h.commented.settle,
      commented' := h.commented'.settle }⟩
    · show (a.tree.settle a.active).pruned.Shifted σ _ (b.tree.settle b.active).pruned
      rw [hpruned, hpruned', ← hseat, ← hseat']
      exact hsettle
    · show (b.tree.settle b.active).rank ((b.tree.settle b.active).seat b.active) =
        (a.tree.settle a.active).rank ((a.tree.settle a.active).seat a.active)
      rw [Tree.seat_of_stands hafter, Tree.seat_of_stands hafter', hrank, hrank', ← hseat, ← hseat']
    · show (b.tree.settle b.active).note? b.active = (a.tree.settle a.active).note? a.active
      rw [Tree.note?_of_stands hafter, Tree.note?_of_stands hafter']

/-- **A text takes a character alike and gives back alike**, in a comment and outside. -/
theorem readText (h : Parallel g rule σ r₀ a b) (hg : g.Comments rule x start) (hin : a.inText = true) (s : Settings)
    (ch : Char) :
    (b.readText g s ch).2 = (a.readText g s ch).2 ∧
      Parallel g rule σ r₀ (a.readText g s ch).1 (b.readText g s ch).1 := by
  have hp : (Phrase.single .chars a.cursor ch).Shifted σ (.single .chars b.cursor ch) := .single h.cursor .chars ch
  have hpast := h.past ch
  obtain ⟨-, htaken⟩ := hpast.resolve hg hp (fun _ _ => rfl) s true
  unfold Run.readText Run.takeChar
  cases hnote : a.note? with
  | some v =>
    obtain ⟨-, -, -, hback⟩ := resolve_note hg hpast.commented s (.single .chars a.cursor ch) true hnote
    obtain ⟨-, -, -, hback'⟩ := resolve_note hg hpast.commented' s (.single .chars b.cursor ch) true
      (hpast.note.trans hnote)
    rw [giveBack_of_none hback, giveBack_of_none hback']
    exact ⟨rfl, htaken⟩
  | none =>
    obtain ⟨e, hown, hseat, hlast, hs⟩ :=
      resolve_text hg hpast.commented s (.single .chars a.cursor ch) true hnote hin
    obtain ⟨e', hown', hseat', hlast', hs'⟩ := resolve_text hg hpast.commented' s (.single .chars b.cursor ch) true
      (hpast.note.trans hnote) (hpast.inText_eq.trans hin)
    have hlater := (hpast.answers (g := g) hp).taken
    rw [hown, hown'] at hlater
    cases hlater with
    | some hy =>
      cases hy.2 with
      | replace hlater =>
        refine htaken.giveBack hs hs' ?_
        rw [hseat, hlast, ← hpast.seat, hlast', hpast.seat]
        exact .some hlater

/-! ### The end of the text -/

theorem reportEnd (h : Parallel g rule σ r₀ a b) (hg : g.Comments rule x start) (s : Settings) :
    Agrees σ r₀ (a.reportEnd g s) (b.reportEnd g s) := by
  have hchain : b.tree.pruned.chain b.seat = a.tree.pruned.chain a.seat := by
    unfold Tree.chain
    rw [h.seat, h.tree.ancestors_eq]
  have hsame : ((b.tree.chain b.active).find? (b.tree.needsMore g)).map (b.tree.place g) =
      ((a.tree.chain a.active).find? (a.tree.needsMore g)).map (a.tree.place g) := by
    rw [← h.commented.unfinished_eq hg, ← h.commented'.unfinished_eq hg, ← h.tree.place_eq, ← h.tree.needsMore_eq]
    exact congrArg (fun l => (List.find? _ l).map _) hchain
  unfold Run.reportEnd
  dsimp only
  cases hfound : (a.tree.chain a.active).find? (a.tree.needsMore g) with
  | none =>
    rw [hfound, Option.map_none, Option.map_eq_none_iff] at hsame
    rw [hsame]
    exact h.toAgrees
  | some id =>
    rw [hfound, Option.map_some, Option.map_eq_some_iff] at hsame
    obtain ⟨id', hfound', hplace⟩ := hsame
    rw [hfound']
    dsimp only
    rw [hplace]
    exact ⟨h.tree, h.reports.cons ⟨⟨h.cursor, h.cursor⟩, rfl, .unfinishedRule _⟩⟩

theorem finish (h : Parallel g rule σ r₀ a b) (hg : g.Comments rule x start) (s : Settings) :
    Agrees σ r₀ (a.finish g s) (b.finish g s) := by
  have hflush := h.flush hg s
  unfold Run.finish
  dsimp only
  split
  · exact hflush.reportEnd hg s
  · exact hflush.toAgrees

end Parallel

/-- **Runs that are the same but for comments go on in lockstep.** -/
theorem parallel_lockstep (hg : g.Comments rule x start) (s : Settings) (σ : Shift) (r₀ : Run) :
    Lockstep g g s s fun _ => Parallel g rule σ r₀ where
  classes := rfl
  inText h := h.inText_eq
  kind h := map_eq_of_rel h.buffer fun _ _ hp => hp.kind
  push h _ hfeeds := h.push hg hfeeds s
  skip h _ _ _ := h.skip _
  flush h _ _ := h.flush hg s
  readText h hin := h.readText hg hin s _

/-- A run that has read nothing but a comment since `r`, in no phrase and no text before and after, is the same run but
for comments, elsewhere in the text. -/
theorem parallel_comment {text rest : List Char} {taken : List Phrase} {c : List Char} (depth : Nat)
    (hg : g.Comments rule x start) (hbelow : rule ≠ Grammar.topLevel) (hreached : Reached g s text r taken (c ++ rest))
    (hbuffer : r.buffer? = none) (hin : r.inText = false) (hcomment : x.Comment start c) :
    ∃ r', readAll g s (depth + 1) r c = some r' ∧ Parallel g rule ⟨r.cursor, r.cursor.advanceOver c⟩ r r r' := by
  obtain ⟨r', hread, haside, hnote', hbuffer', -, hcursor⟩ :=
    readAll_comment hg hbelow depth hreached hbuffer hin hcomment
  obtain ⟨taken', hreached'⟩ := hreached.readAll hread
  have hc := (Passes.reached hreached).tree_commented hg hbelow
  have hclosed : ∀ id c, r.tree.pruned.Records id c → c.inText = false := by
    intro id c hrecords
    obtain ⟨id, hrecords⟩ := hrecords.of_pruned
    exact hrecords.inText_eq_false hc.conforms hc.openOnly hin
  have hnote : r.note? = none := by
    have hout := Run.inText_eq hc
    rw [hin] at hout
    simpa using (Bool.or_eq_false_iff.mp hout.symm).2
  refine ⟨r', hread, ⟨?_, ?_⟩, haside.seat, hnote'.trans hnote.symm, ?_, ?_, ?_, hc,
    (Passes.reached hreached').tree_commented hg hbelow⟩
  · rw [haside.pruned]
    exact .refl hclosed
  · rw [haside.reports]
    exact ⟨[], [], rfl, rfl, .nil⟩
  · rw [hbuffer, hbuffer']
    exact .none
  · rw [hcursor]
    exact Shift.carries_start _
  · rw [hbuffer]
    exact fun _ hp => nomatch hp

end Run

/-- **Comments are transparent.**  In a grammar with comments, let a run over `u` come to a state `r` in which no phrase
is being read and no text is open, and let `c` be one comment.  Its rule is not the top-level rule, of which the
instance around all others is one.

* `u ++ c ++ v` comes to its end if and only if `u ++ v` does, whatever the nesting is bounded by.  Without global
  subtrees the trees are the same: the same instances with the same rules, parents, parts, children, values, flags and
  separators.  The reports are the same, in the same order, with the same contents and the same unfinished rules and
  parts.  Spans that were recorded up to `r` are left as they were, and what was recorded later stands where it would if
  the cursor had first been moved over `c`.
* So it is with the results of the two texts. -/
theorem Grammar.comments_transparent {g : Grammar} {s : Settings} {rule : RuleId} {x : TextPart} {start : String}
    {u v c : List Char} {depth₀ : Nat} {r : Run} (hg : g.Comments rule x start) (hbelow : rule ≠ Grammar.topLevel)
    (hread : Run.readAll g s depth₀ {} u = some r) (hbuffer : r.buffer? = none) (hin : r.inText = false)
    (hcomment : x.Comment start c) :
    (∀ depth, 0 < depth → Option.Rel (Run.Agrees ⟨r.cursor, r.cursor.advanceOver c⟩ r)
      ((Run.readAll g s depth {} (u ++ v)).map (Run.finish g s))
      ((Run.readAll g s depth {} (u ++ c ++ v)).map (Run.finish g s))) ∧
    ∀ a, g.read? s (u ++ v) = some a →
      ∃ b, g.read? s (u ++ c ++ v) = some b ∧ Run.Agrees ⟨r.cursor, r.cursor.advanceOver c⟩ r a b := by
  have hstart : Run.Reached g s (u ++ (c ++ v)) {} [] (u ++ (c ++ v)) := .start
  obtain ⟨taken, hreached⟩ := hstart.readAll hread
  have hall : ∀ depth, 0 < depth → Option.Rel (Run.Agrees ⟨r.cursor, r.cursor.advanceOver c⟩ r)
      ((Run.readAll g s depth {} (u ++ v)).map (Run.finish g s))
      ((Run.readAll g s depth {} (u ++ c ++ v)).map (Run.finish g s)) := by
    intro depth hdepth
    rw [Run.readAll_append, Run.readAll_append, Run.readAll_append]
    cases hu : Run.readAll g s depth {} u with
    | none => exact .none
    | some r' =>
      cases Run.readAll_inj hu hread
      obtain ⟨depth, rfl⟩ := Nat.exists_eq_succ_of_ne_zero (Nat.pos_iff_ne_zero.mp hdepth)
      obtain ⟨r', hcread, hparallel⟩ := Run.parallel_comment depth hg hbelow hreached hbuffer hin hcomment
      rw [Option.bind_some, Option.bind_some, hcread, Option.bind_some]
      have hparallel : Run.Parallel g rule ⟨r.cursor, r.cursor.advanceOver c⟩ r r r' := hparallel
      exact rel_map ((Run.parallel_lockstep hg s _ r).readAll depth.succ v [] hparallel) fun _ _ h => h.finish hg s
  refine ⟨hall, fun a ha => ?_⟩
  exact Grammar.read?_rel (by simp only [List.length_append]; omega) (hall _ (Nat.succ_pos _)) ha

namespace Listing

/-- A comment, from an opening phrase to a closing phrase. -/
def comment (opening closing : String) : TextPart := { key := "comment", opening? := some opening, closing }

/-- Names, each with a number, and comments. -/
def annotatedRules : List (Rule RuleId) := [⟨topLevelName, [.choice { key := "items", candidates := [1] }]⟩,
  ⟨"Item", [.simple (.identifier "name"), .simple (.number "value")]⟩,
  ⟨"Comment", [.simple (.text (comment "/*" "*/"))]⟩]

/-- A comment at the top level, which is also the global rule. -/
def remarkRules : List (Rule RuleId) := [⟨topLevelName, [.simple (.text (comment "#" "!"))]⟩]

theorem sound_annotated : Sound annotatedRules { key := "global", candidates := [2], optional := true } {} := by
  constructor <;> decide +kernel

theorem sound_remark : Sound remarkRules { key := "global", candidates := [0], optional := true } {} := by
  constructor <;> decide +kernel

def annotated : Grammar := ⟨annotatedRules, _, _, sound_annotated⟩

def remarkOnly : Grammar := ⟨remarkRules, _, _, sound_remark⟩

theorem comments_annotated : annotated.Comments 2 (comment "/*" "*/") "/*" where
  global := rfl
  parts := rfl
  opening := rfl
  closing_ne := by decide
  kept := rfl
  start_ne := by decide
  start_other := List.all_eq_true.mp (by decide)
  shunned := by
    intro other hother part hpart
    match other with
    | 0 =>
      cases List.mem_singleton.mp hpart
      intro separator hseparator
      cases hseparator
    | 1 =>
      rcases List.mem_pair.mp hpart with rfl | rfl
      · trivial
      · trivial
    | 2 => exact absurd rfl hother
    | _ + 3 => cases hpart
  unnamed := by
    intro other part hpart
    match other with
    | 0 => cases List.mem_singleton.mp hpart; decide
    | 1 => rcases List.mem_pair.mp hpart with rfl | rfl <;> decide
    | 2 => cases List.mem_singleton.mp hpart; decide
    | _ + 3 => cases hpart

theorem comments_remarkOnly : remarkOnly.Comments Grammar.topLevel (comment "#" "!") "#" where
  global := rfl
  parts := rfl
  opening := rfl
  closing_ne := by decide
  kept := rfl
  start_ne := by decide
  start_other := List.all_eq_true.mp (by decide)
  shunned := by
    intro other hother part hpart
    match other with
    | 0 => exact absurd rfl hother
    | _ + 1 => cases hpart
  unnamed := by
    intro other part hpart
    match other with
    | 0 => cases List.mem_singleton.mp hpart; decide
    | _ + 1 => cases hpart

/-- A comment before the number of an item moves the number. -/
theorem annotated_listing : (2 : RuleId) ≠ Grammar.topLevel ∧
    (comment "/*" "*/").Comment "/*" ['/', '*', 'b', '*', '/'] ∧ ∃ r a b,
      Run.readAll annotated {} 1 {} ['a', ' '] = some r ∧ r.buffer? = none ∧ r.inText = false ∧
      annotated.read? {} (['a', ' '] ++ ['1']) = some a ∧
      annotated.read? {} (['a', ' '] ++ ['/', '*', 'b', '*', '/'] ++ ['1']) = some b ∧
      Run.Agrees ⟨⟨1, 3⟩, ⟨1, 8⟩⟩ r a b := by
  have hbelow : (2 : RuleId) ≠ Grammar.topLevel := by decide
  have hcomment : (comment "/*" "*/").Comment "/*" ['/', '*', 'b', '*', '/'] := by decide +kernel
  have hstops : ∃ r, Run.readAll annotated {} 1 {} ['a', ' '] = some r ∧ r.buffer? = none ∧ r.inText = false ∧
      r.cursor = ⟨1, 3⟩ := by
    have hsome : (Run.readAll annotated {} 1 {} ['a', ' ']).any
        (fun r => r.buffer?.isNone && !r.inText && decide (r.cursor = ⟨1, 3⟩)) = true := by decide +kernel
    cases hread : Run.readAll annotated {} 1 {} ['a', ' '] with
    | none => simp [hread] at hsome
    | some r => exact ⟨r, rfl, by simpa [hread, and_assoc] using hsome⟩
  obtain ⟨r, hread, hbuffer, hin, hcursor⟩ := hstops
  have hends : (annotated.read? {} (['a', ' '] ++ ['1'])).isSome = true := by decide +kernel
  obtain ⟨a, ha⟩ := Option.isSome_iff_exists.mp hends
  obtain ⟨-, hsame⟩ := Grammar.comments_transparent (v := ['1']) comments_annotated hbelow hread hbuffer hin hcomment
  obtain ⟨b, hb, hab⟩ := hsame a ha
  rw [hcursor] at hab
  exact ⟨hbelow, hcomment, r, a, b, hread, hbuffer, hin, ha, hb, hab⟩

/-- **At the top level a comment is not transparent**: there it is what the text consists of. -/
theorem remark_seen : remarkOnly.Comments Grammar.topLevel (comment "#" "!") "#" ∧
    (comment "#" "!").Comment "#" ['#', '!'] ∧ ∃ r a b,
      Run.readAll remarkOnly {} 1 {} [] = some r ∧ r.buffer? = none ∧ r.inText = false ∧
      remarkOnly.read? {} ([] ++ []) = some a ∧ remarkOnly.read? {} ([] ++ ['#', '!'] ++ []) = some b ∧
      ∀ σ, ¬ Run.Agrees σ r a b := by
  have hempty : (remarkOnly.read? {} []).bind (fun r => (r.tree.pruned.node? 0).map (·.entries.length)) = some 0 := by
    decide +kernel
  have hfull : (remarkOnly.read? {} ['#', '!']).bind (fun r => (r.tree.pruned.node? 0).map (·.entries.length)) =
      some 1 := by decide +kernel
  obtain ⟨a, ha, hlength⟩ := Option.bind_eq_some_iff.mp hempty
  obtain ⟨b, hb, hlength'⟩ := Option.bind_eq_some_iff.mp hfull
  refine ⟨comments_remarkOnly, by decide +kernel, {}, a, b, rfl, rfl, by decide +kernel, ha, hb, fun σ hab => ?_⟩
  have hnode := hab.tree.nodes 0
  generalize a.tree.pruned.node? 0 = m?, b.tree.pruned.node? 0 = n? at hnode hlength hlength'
  cases hnode with
  | none => cases hlength
  | some hn =>
    have hsame := hn.entries.length_eq
    simp only [Option.map_some, Option.some.injEq] at hlength hlength'
    omega

end Listing

end PhraseTree
