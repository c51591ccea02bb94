import PhraseTree.Proofs.Run.Expectation
import PhraseTree.Proofs.Run.OpenText
import PhraseTree.Proofs.Run.Verbatim
import PhraseTree.Proofs.Tree.DirectText

/-!
# Where texts end

A text part that stands among the parts of a rule ends with the first closing phrase behind its opening phrase.

* `Run.AtText g text r id x i a o b isOpen` — the latest entry of the active instance `id` is a text that was opened by
  the characters from `a` up to `o` and holds those up to `b`, where the run stands;
* `Run.Opens g s text r id x i a o` — a run over `text` comes to such a state where the text was just opened;
* `Run.AtText.step`, `Run.AtText.step_end`: a character goes into an open text or closes it;
* `Run.AtText.goes_on`, `Run.AtText.comes_to_end`: so do those that follow, up to the end of the first closing phrase;
* `Run.Along g text id x i a o r rest` — the run stands somewhere on that way, and nowhere else (`Run.AtText.stays`);
* `Run.Traced g s text r rest id x c` — the text `c` of the instance `id` was opened at some point of the run, and is as
  it was left where it was closed, or still open.

`Grammar.texts_end_first`: every text of a run ends where the first closing phrase ends, or not at all.
-/

namespace PhraseTree

namespace Run

variable {g : Grammar} {s : Settings} {text rest rest' : List Char} {r r' : Run} {taken : List Phrase}
  {id : NodeId} {x : TextPart} {c c' : Capture} {i a o q b e : Nat} {isOpen : Bool} {ch : Char} {p : Phrase} {must : Bool}

/-- **The run stands at place `b` in a text**, or behind it if this is closed. -/
structure AtText (g : Grammar) (text : List Char) (r : Run) (id : NodeId) (x : TextPart) (i a o b : Nat)
    (isOpen : Bool) : Prop where
  active : r.active = id
  last : r.tree.LastText g id x (.ofText text i a o b isOpen)
  cursor : r.cursor = cursorAt .start text b
  buffer : r.buffer? = none

/-- **The run has just opened a text** with the characters from `a` up to `o`. -/
structure Opens (g : Grammar) (s : Settings) (text : List Char) (r : Run) (id : NodeId) (x : TextPart) (i a o : Nat) :
    Prop where
  reached : ∃ taken, Reached g s text r taken (text.drop o)
  lt : a < o
  le_length : o ≤ text.length
  opens : x.opens (String.ofList (slice text a o)) = true
  atText : r.AtText g text id x i a o o true

/-- **Where a run may stand that came to an open text**: within it, as long as no closing phrase has ended, or where it
stops. -/
inductive Along (g : Grammar) (text : List Char) (id : NodeId) (x : TextPart) (i a o : Nat) : Run → List Char → Prop
  | within {r : Run} {q : Nat} (hoq : o ≤ q) (hq : q ≤ text.length) (hclear : ∀ e ∈ x.ends text o, q < e)
      (hat : r.AtText g text id x i a o q true) : Along g text id x i a o r (text.drop q)
  | behind {r : Run} {e : Nat} (he : IsLeast (x.ends text o) e) (hat : r.AtText g text id x i a o (x.stop e) false) :
      Along g text id x i a o r (text.drop (x.stop e))

/-- **The active instance takes `p` by its latest entry.**  It tries no other part, no other instance is asked, and nothing
but this entry changes. -/
def TakesInside (g : Grammar) (s : Settings) (r : Run) (p : Phrase) : Prop :=
  ∃ n c, r.tree.node? r.active = some n ∧ n.offerTried g p = (⟨0, some (.replace (.capture c))⟩, []) ∧
    ∀ must, r.resolve g s p must =
      ({ r with
        tree := (r.tree.apply r.active (.replace (.capture c))).1
        counters := { r.counters with offered := r.counters.offered + 1 } }, true)

/-- The run goes on within an open text, or stands still. -/
def Stays (g : Grammar) (s : Settings) (r : Run) (rest : List Char) (r' : Run) (rest' : List Char) : Prop :=
  r' = r ∧ rest' = rest ∨ Within g s r rest r' rest'

theorem Stays.step (h : Stays g s r rest r' (ch :: rest')) (hin : r'.inText = true) :
    Within g s r rest (r'.step g s ch).1 ((r'.step g s ch).2 ++ rest') := by
  rcases h with ⟨rfl, rfl⟩ | h
  · exact .one hin
  · exact h.more hin

/-! ### One character -/

theorem offerTried_of_last {t : Tree} (h : t.LastText g id x c) (hfin : c.finished = false)
    (hresume : x.resume? p c = some c') :
    ∃ n, t.node? id = some n ∧ n.offerTried g p = (⟨0, some (.replace (.capture c'))⟩, []) := by
  obtain ⟨n, hn, hlast, hat⟩ := h
  have hresumed : Part.resume (g.sprout p) p (.simple (.text x)) (.capture c) =
      ⟨0, some (.replace (.capture c'))⟩ := by
    show Search.ofOption ((x.resume? p c).map fun c => Change.replace (.capture c)) = _
    rw [hresume]
    rfl
  refine ⟨n, hn, ?_⟩
  simp only [Node.offerTried, hlast, Entry.finished, hfin, Entry.part, hat, hresumed, Bool.false_eq_true, if_false,
    Option.isSome_some, if_true]

theorem offer_of_last {t : Tree} (h : t.LastText g id x c) (hfin : c.finished = false)
    (hresume : x.resume? p c = some c') : t.offer g p id = ⟨0, some (.replace (.capture c'))⟩ := by
  obtain ⟨n, hn, hoffer⟩ := offerTried_of_last h hfin hresume
  rw [Tree.offer, hn]
  dsimp only
  rw [← Node.offerTried_fst, hoffer]

theorem lastText_apply {t : Tree} (h : t.LastText g id x c) (hpart : c'.part = c.part) :
    (t.apply id (.replace (.capture c'))).1.LastText g id x c' := by
  obtain ⟨n, hn, -, hat⟩ := h
  refine ⟨n.replaceLast (.capture c'), by simp [Tree.apply, Tree.node?_modify, hn], rfl, ?_⟩
  rw [hpart]
  exact hat

namespace AtText

theorem inText_eq (h : r.AtText g text id x i a o b isOpen) : r.inText = isOpen := by
  obtain ⟨n, hn, hlast, -⟩ := h.last
  rw [inText, h.active, Tree.inText, hn, Option.any_some, Node.inText, hlast, Option.any_some]
  rfl

/-- **An open text takes whatever comes next**, and nobody else is asked. -/
theorem takesInside (h : r.AtText g text id x i a o b true) (s : Settings) (p : Phrase) : r.TakesInside g s p := by
  obtain ⟨c, hresume⟩ := Option.isSome_iff_exists.mp
    (TextPart.resume?_isSome (t := x) (p := p) (c := .ofText text i a o b true) rfl)
  obtain ⟨n, hn, htried⟩ := offerTried_of_last h.last rfl hresume
  have hoffer := offer_of_last h.last rfl hresume
  rw [← h.active] at hn hoffer
  exact ⟨n, c, hn, htried, resolve_of_replace hoffer s⟩

/-- **A character goes into an open text**, and no closing phrase ends with it. -/
theorem step (h : r.AtText g text id x i a o q true) (hao : a ≤ o) (hoq : o ≤ q) (hch : text[q]? = some ch)
    (hopen : q + 1 ∉ x.ends text o) (s : Settings) :
    (r.step g s ch).1.AtText g text id x i a o (q + 1) true ∧ (r.step g s ch).2 = [] := by
  have hresume := TextPart.resume?_ofText (i := i) hao hoq hch hopen
  have hoffer := offer_of_last h.last rfl hresume
  rw [← h.cursor, ← h.active] at hoffer
  rw [step_of_replace h.inText_eq hoffer]
  refine ⟨⟨h.active, ?_, ?_, h.buffer⟩, rfl⟩
  · show (r.tree.apply r.active _).1.LastText g id x _
    rw [h.active]
    exact lastText_apply h.last rfl
  · show r.cursor.advance ch = _
    rw [h.cursor, cursorAt_advance hch]

/-- **A character closes a text**: a closing phrase ends with it.  The run goes on where the text stops. -/
theorem step_end (h : r.AtText g text id x i a o q true) (hao : a ≤ o) (hoq : o ≤ q) (hch : text[q]? = some ch)
    (hend : q + 1 ∈ x.ends text o) (s : Settings) :
    (r.step g s ch).1.AtText g text id x i a o (x.stop (q + 1)) false ∧
      (r.step g s ch).2 ++ text.drop (q + 1) = text.drop (x.stop (q + 1)) := by
  have hresume := TextPart.resume?_ofText_end (i := i) hao hoq hch hend
  have hoffer := offer_of_last h.last rfl hresume
  rw [← h.cursor, ← h.active] at hoffer
  rw [step_of_replace h.inText_eq hoffer]
  have hlast : r.tree.LastText g r.active x (.ofText text i a o q true) := by
    rw [h.active]
    exact h.last
  by_cases hgives : x.handsBack = true
  · rw [if_pos hgives]
    refine ⟨⟨h.active, ?_, rfl, h.buffer⟩, TextPart.closing_append_drop hend hgives⟩
    rw [← h.active]
    exact lastText_apply hlast rfl
  · have hstop : x.stop (q + 1) = q + 1 := by rw [TextPart.stop, if_neg hgives]
    rw [if_neg hgives, hstop]
    refine ⟨⟨h.active, ?_, ?_, h.buffer⟩, rfl⟩
    · rw [← h.active]
      exact lastText_apply hlast rfl
    · show r.cursor.advance ch = _
      rw [h.cursor, cursorAt_advance hch]

/-- **One more character** goes into the text or closes it. -/
theorem along_step (h : r.AtText g text id x i a o q true) (hao : a ≤ o) (hoq : o ≤ q)
    (hclear : ∀ e ∈ x.ends text o, q < e) (hch : text[q]? = some ch) (s : Settings) :
    Along g text id x i a o (r.step g s ch).1 ((r.step g s ch).2 ++ text.drop (q + 1)) := by
  by_cases hend : q + 1 ∈ x.ends text o
  · obtain ⟨hat, hback⟩ := h.step_end hao hoq hch hend s
    rw [hback]
    exact .behind ⟨hend, fun e he => hclear e he⟩ hat
  · obtain ⟨hat, hnone⟩ := h.step hao hoq hch hend s
    rw [hnone]
    refine .within (Nat.le_succ_of_le hoq) (List.getElem?_eq_some_iff.mp hch).1 (fun e he => ?_) hat
    have hlt := hclear e he
    have hne : e ≠ q + 1 := fun heq => hend (heq ▸ he)
    omega

/-- **All that is read in a text goes into it**, up to the end of the first closing phrase; then the run goes on where
the text stops. -/
theorem stays (h : r.AtText g text id x i a o o true) (hao : a ≤ o) (ho : o ≤ text.length)
    (hstays : Stays g s r (text.drop o) r' rest') : Along g text id x i a o r' rest' := by
  rcases hstays with ⟨rfl, rfl⟩ | hwithin
  · exact .within le_rfl ho (fun e he => TextPart.lt_of_mem_ends he) h
  · generalize hrest : text.drop o = rest at hwithin
    induction hwithin with
    | one hin =>
      obtain ⟨hch, rfl⟩ := of_cons_eq_drop hrest.symm
      exact h.along_step hao le_rfl (fun e he => TextPart.lt_of_mem_ends he) hch s
    | @more r₁ ch rest rest₁ hwithin hin ih =>
      have halong := ih hrest
      generalize hleft : ch :: rest₁ = left at halong
      cases halong with
      | within hoq hq hclear hat =>
        obtain ⟨hch, rfl⟩ := of_cons_eq_drop hleft
        exact hat.along_step hao hoq hclear hch s
      | behind he hat =>
        rw [hat.inText_eq] at hin
        cases hin

/-- **An open text goes on** as long as no closing phrase has ended. -/
theorem goes_on (h : r.AtText g text id x i a o o true) (hao : a ≤ o) (s : Settings) (hoq : o ≤ q)
    (hq : q ≤ text.length) (hclear : ∀ e ∈ x.ends text o, q < e) :
    ∃ r', Stays g s r (text.drop o) r' (text.drop q) ∧ r'.AtText g text id x i a o q true := by
  induction q, hoq using Nat.le_induction with
  | base => exact ⟨r, Or.inl ⟨rfl, rfl⟩, h⟩
  | succ q hoq ih =>
    obtain ⟨r', hstays, hat⟩ := ih (Nat.le_of_succ_le hq) fun e he => Nat.lt_of_succ_lt (hclear e he)
    have hdrop : text.drop q = text[q] :: text.drop (q + 1) := List.drop_eq_getElem_cons hq
    have hopen : q + 1 ∉ x.ends text o := fun he => Nat.lt_irrefl _ (hclear _ he)
    obtain ⟨hat', hnone⟩ := hat.step hao hoq (List.getElem?_eq_getElem hq) hopen s
    rw [hdrop] at hstays
    have hwithin := hstays.step hat.inText_eq
    rw [hnone, List.nil_append] at hwithin
    exact ⟨_, Or.inr hwithin, hat'⟩

/-- **It is closed by the first closing phrase.**  The run goes on where the text stops. -/
theorem comes_to_end (h : r.AtText g text id x i a o o true) (hao : a ≤ o) (s : Settings)
    (he : IsLeast (x.ends text o) e) :
    ∃ r', Within g s r (text.drop o) r' (text.drop (x.stop e)) ∧ r'.AtText g text id x i a o (x.stop e) false := by
  obtain ⟨q, rfl⟩ : ∃ q, e = q + 1 := Nat.exists_eq_add_one.mpr (Nat.zero_lt_of_lt (TextPart.lt_of_mem_ends he.1))
  have hoq : o ≤ q := Nat.le_of_lt_succ (TextPart.lt_of_mem_ends he.1)
  have hq : q < text.length := he.1.2.2.1
  obtain ⟨r', hstays, hat⟩ := h.goes_on hao s hoq hq.le fun e' he' => he.2 he'
  obtain ⟨hat', hback⟩ := hat.step_end hao hoq (List.getElem?_eq_getElem hq) he.1 s
  rw [List.drop_eq_getElem_cons hq] at hstays
  have hwithin := hstays.step hat.inText_eq
  rw [hback] at hwithin
  exact ⟨_, hwithin, hat'⟩

end AtText

/-! ### Where texts come from -/

/-- **The text `c` was opened at some point of the run** and is as it was left where it was closed, or as it is here. -/
def Traced (g : Grammar) (s : Settings) (text : List Char) (r : Run) (rest : List Char) (id : NodeId) (x : TextPart)
    (c : Capture) : Prop :=
  ∃ r₁ a o r₂ rest₂, r₁.Opens g s text id x c.part a o ∧ Stays g s r₁ (text.drop o) r₂ rest₂ ∧
    r₂.tree.LastText g id x c ∧ (c.inText = true → r₂ = r ∧ rest₂ = rest)

theorem Traced.later (h : Traced g s text r rest id x c) (hclosed : c.inText = false) (r' : Run) (rest' : List Char) :
    Traced g s text r' rest' id x c := by
  obtain ⟨r₁, a, o, r₂, rest₂, hopens, hstays, hlast, -⟩ := h
  exact ⟨r₁, a, o, r₂, rest₂, hopens, hstays, hlast, by simp [hclosed]⟩

theorem traced_of_begin (hreached : Reached g s text r taken (text.drop o))
    (hp : Quotes .start text p.span p.text.toList a o) (hlt : a < o) (hcursor : r.cursor = cursorAt .start text o)
    (hbuffer : r.buffer? = none) (hlast : r.tree.LastText g r.active x c) (hbegin : x.begin? c.part p = some c) :
    Traced g s text r (text.drop o) r.active x c := by
  obtain ⟨hopens, hc⟩ := TextPart.begin?_ofText hbegin hp
  have hat : r.AtText g text r.active x c.part a o o true := ⟨rfl, by rw [← hc]; exact hlast, hcursor, hbuffer⟩
  exact ⟨r, a, o, r, _, ⟨⟨taken, hreached⟩, hlt, hp.le_length, hopens, hat⟩, Or.inl ⟨rfl, rfl⟩, hlast,
    fun _ => ⟨rfl, rfl⟩⟩

theorem hasText_resolve (ho : r.tree.OpenOnlyAt r.active) (hin : r.inText = false)
    (hhas : (r.resolve g s p must).1.tree.HasText g id x c) :
    r.tree.HasText g id x c ∨ (r.resolve g s p must).2 = true ∧ id = (r.resolve g s p must).1.active ∧
      (r.resolve g s p must).1.tree.LastText g id x c ∧ x.begin? c.part p = some c := by
  have hplaces := resolve_places g s r p must
  cases htook : (r.resolve g s p must).2 with
  | true => exact ((hplaces.takes htook).text_arises ho hin hhas).imp_right fun hnew => ⟨rfl, hnew⟩
  | false =>
    rw [(hplaces.refuses htook).1] at hhas
    exact Or.inl hhas

theorem hasText_push {kind : PhraseKind} (ho : r.tree.OpenOnlyAt r.active) (hin : r.inText = false)
    (hhas : (r.push g s kind ch).tree.HasText g id x c) :
    r.tree.HasText g id x c ∨ id = (r.push g s kind ch).active ∧ (r.push g s kind ch).buffer? = none ∧
      (r.push g s kind ch).tree.LastText g id x c ∧ x.begin? c.part (r.grown kind ch) = some c := by
  by_cases hkind : kind = .chars
  · subst hkind
    rw [push_chars] at hhas ⊢
    by_cases htook : ((r.hold .chars ch).resolve g s (r.grown .chars ch) false).2 = true
    · rw [if_pos htook] at hhas ⊢
      exact (hasText_resolve (r := r.hold .chars ch) ho hin hhas).imp_right
        fun ⟨_, hid, hlast, hbegin⟩ => ⟨hid, rfl, hlast, hbegin⟩
    · rw [if_neg htook] at hhas
      exact Or.inl ((hasText_resolve (r := r.hold .chars ch) ho hin hhas).resolve_right fun hnew => htook hnew.1)
  · rw [push_eq_of_ne hkind] at hhas
    exact Or.inl hhas

/-- A character that goes into an open text leaves the closed ones as they are and goes on with the open one. -/
theorem hasText_step (hc : r.tree.Conforms g) (ho : r.tree.OpenOnlyAt r.active) (hin : r.inText = true)
    (hhas : (r.step g s ch).1.tree.HasText g id x c) :
    (r.tree.HasText g id x c ∧ c.inText = false) ∨
      (r.step g s ch).1.tree.LastText g id x c ∧
        ∃ c₀, r.tree.HasText g id x c₀ ∧ c₀.inText = true ∧ c₀.part = c.part := by
  obtain ⟨e, hoffer⟩ := hc.offer_eq_of_inText hin (.single .chars r.cursor ch)
  obtain ⟨n, hn, ha⟩ := Tree.offer_answers (show (r.tree.offer g _ r.active).found? = some (.replace e) by rw [hoffer])
  rw [step_of_replace hin hoffer] at hhas ⊢
  cases hback : e.toReread? with
  | none =>
    rw [hback] at hhas
    exact hhas.of_replace hn ha (Or.inl rfl) hc ho
  | some back =>
    rw [hback] at hhas
    exact hhas.of_replace hn ha (Or.inr rfl) hc ho

/-- **Every text of a calm run was opened somewhere.** -/
theorem Reached.traced (h : Reached g s text r taken rest) (hcalm : g.Calm s (fun _ => True) text)
    (hhas : r.tree.HasText g id x c) : Traced g s text r rest id x c := by
  induction h generalizing id x c with
  | start => exact absurd hhas Tree.not_hasText_root
  | @flush r taken rest p h hin hbuffer hend ih =>
    obtain ⟨low, pos, htracks, rfl⟩ := h.tracks (fun _ _ => trivial) hcalm
    have hreached := h.flush hin hbuffer hend
    have hcursor := (htracks.flush (s := s) hin hbuffer).cursor
    rw [flush_of_some hbuffer] at hhas hreached hcursor ⊢
    rcases hasText_resolve htracks.tree.openOnly hin hhas with hold | ⟨-, rfl, hlast, hbegin⟩
    · exact (ih hold).later (hold.closed htracks.tree.conforms htracks.tree.openOnly hin) _ _
    · obtain ⟨a, -, hlt, hp⟩ := htracks.buffer p hbuffer
      exact traced_of_begin hreached hp hlt hcursor rfl hlast hbegin
  | @read r r' taken taken' ch again rest h hread ih =>
    obtain ⟨low, pos, htracks, hrest⟩ := h.tracks (fun _ _ => trivial) hcalm
    have hreached := h.read hread
    obtain ⟨hch, rfl⟩ := of_cons_eq_drop hrest
    have hpush : ∀ {kind : PhraseKind} {taken' : List Phrase}, r.inText = false →
        Reached g s text (r.push g s kind ch) taken' (text.drop (pos + 1)) →
        (r.push g s kind ch).tree.HasText g id x c →
        Traced g s text (r.push g s kind ch) (text.drop (pos + 1)) id x c := by
      intro kind taken' hin hreached hhas
      rcases hasText_push htracks.tree.openOnly hin hhas with hold | ⟨rfl, hbuffer, hlast, hbegin⟩
      · exact (ih hold).later (hold.closed htracks.tree.conforms htracks.tree.openOnly hin) _ _
      · obtain ⟨a, -, hlt, hp⟩ := htracks.grown hch kind
        exact traced_of_begin hreached hp hlt (htracks.push hin hch).cursor hbuffer hlast hbegin
    cases hread with
    | lengthen hin | begin hin => exact hpush hin hreached hhas
    | skip hin =>
      have hold : r.tree.HasText g id x c := by
        unfold Run.skip at hhas
        split at hhas <;> exact hhas
      exact (ih hold).later (hold.closed htracks.tree.conforms htracks.tree.openOnly hin) _ _
    | text hin =>
      have hstep : r.readText g s ch = r.step g s ch := by rw [Run.step, if_pos hin]
      rw [hstep] at hhas ⊢
      rcases hasText_step htracks.tree.conforms htracks.tree.openOnly hin hhas with
        ⟨hold, hclosed⟩ | ⟨hlast, c₀, hold, hopen, hpart⟩
      · exact (ih hold).later hclosed _ _
      · obtain ⟨r₁, a, o, r₂, rest₂, hopens, hstays, -, hhere⟩ := ih hold
        obtain ⟨rfl, rfl⟩ := hhere hopen
        rw [hpart] at hopens
        exact ⟨r₁, a, o, _, _, hopens, Or.inr (hstays.step hin), hlast, fun _ => ⟨rfl, rfl⟩⟩

/-- **At the end of the run** a text was closed where the first closing phrase ends, or there is none and it is open. -/
theorem Traced.at_end (h : Traced g s text r [] id x c) :
    ∃ r₁ a o, Opens g s text r₁ id x c.part a o ∧
      ((∃ e, IsLeast (x.ends text o) e ∧ c = .ofText text c.part a o (x.stop e) false) ∨
        x.ends text o = ∅ ∧ c = .ofText text c.part a o text.length true) := by
  obtain ⟨r₁, a, o, r₂, rest₂, hopens, hstays, hlast, hhere⟩ := h
  refine ⟨r₁, a, o, hopens, ?_⟩
  cases hopens.atText.stays hopens.lt.le hopens.le_length hstays with
  | @within q _ hq hclear hat =>
    have hc := hlast.unique hat.last
    have hopen : c.inText = true := by rw [hc]; rfl
    obtain rfl : q = text.length := hq.antisymm (List.drop_eq_nil_iff.mp (hhere hopen).2)
    refine Or.inr ⟨Set.eq_empty_of_forall_notMem fun e he => ?_, hc⟩
    have hle : e ≤ text.length := he.2.2.1
    exact absurd (hclear e he) hle.not_gt
  | behind he hat => exact Or.inl ⟨_, he, hlast.unique hat.last⟩

end Run

/-- **A text ends with the first closing phrase behind its opening phrase.**

* Wherever a text was opened by the characters from `a` up to `o`, let a closing phrase end at `e` and none before.  Then
  all characters up to there go into the text, and the run comes to a state where it is closed and holds those up to `e`,
  or up to where the closing phrase begins if it is handed back.  There the run goes on, in no text.
* If there is no such place, as there is none for an empty closing phrase, the text is still open at the end and holds
  all that is left.
* While it is open, nobody else is offered anything.
* The run comes to its end, and each text of the result was opened somewhere and holds just that. -/
theorem Grammar.texts_end_first {g : Grammar} (hpaths : g.KeepsPaths) (s : Settings) (text : List Char) :
    (∀ r₁ id x i a o, Run.Opens g s text r₁ id x i a o →
      (∀ e, IsLeast (x.ends text o) e → ∃ r₂, Run.Within g s r₁ (text.drop o) r₂ (text.drop (x.stop e)) ∧
        r₂.AtText g text id x i a o (x.stop e) false ∧ r₂.inText = false) ∧
      (x.closing = "" ∨ x.ends text o = ∅ → ∃ r₂, Run.Stays g s r₁ (text.drop o) r₂ [] ∧
        r₂.AtText g text id x i a o text.length true ∧ r₂.inText = true) ∧
      ∀ r₂ rest₂, Run.Stays g s r₁ (text.drop o) r₂ rest₂ → r₂.inText = true →
        ∃ q, o ≤ q ∧ (∀ e ∈ x.ends text o, q < e) ∧ rest₂ = text.drop q ∧ r₂.AtText g text id x i a o q true ∧
          ∀ p, r₂.TakesInside g s p) ∧
    ∃ r, g.read? s text = some r ∧ ∀ id x c, r.tree.HasText g id x c →
      ∃ r₁ a o, Run.Opens g s text r₁ id x c.part a o ∧
        ((∃ e, IsLeast (x.ends text o) e ∧ c = .ofText text c.part a o (x.stop e) false) ∨
          x.ends text o = ∅ ∧ c = .ofText text c.part a o text.length true) := by
  refine ⟨fun r₁ id x i a o hopens => ⟨fun e he => ?_, fun hends => ?_, fun r₂ rest₂ hstays hin => ?_⟩, ?_⟩
  · obtain ⟨r₂, hwithin, hat⟩ := hopens.atText.comes_to_end hopens.lt.le s he
    exact ⟨r₂, hwithin, hat, hat.inText_eq⟩
  · have hnone : ∀ e, e ∉ x.ends text o := by
      rcases hends with hempty | hnone
      · exact fun e he => he.1 hempty
      · exact fun e he => by rw [hnone] at he; exact he
    obtain ⟨r₂, hstays, hat⟩ := hopens.atText.goes_on hopens.lt.le s hopens.le_length le_rfl
      fun e he => absurd he (hnone e)
    rw [List.drop_length] at hstays
    exact ⟨r₂, hstays, hat, hat.inText_eq⟩
  · cases hopens.atText.stays hopens.lt.le hopens.le_length hstays with
    | within hoq _ hclear hat => exact ⟨_, hoq, hclear, rfl, hat, hat.takesInside s⟩
    | behind _ hat =>
      rw [hat.inText_eq] at hin
      cases hin
  · have hcalm : g.Calm s (fun _ => True) text := hpaths.apart.calm s text
    obtain ⟨r, taken, hends, hread⟩ := hcalm.read?_ends fun _ _ => trivial
    refine ⟨_, hread, fun id x c hhas => (hends.reached.traced hcalm ?_).at_end⟩
    split at hhas
    · rwa [(r.reportEnd_cases g s).1] at hhas
    · exact hhas

namespace Slashed

/-- A comment up to the next two signs that close it, which stay outside. -/
def comment : TextPart := { key := "comment", opening? := some "/*", closing := "*/", handsBack := true }

def rules : List (Rule RuleId) := [⟨topLevelName, [.simple (.text comment)]⟩]

theorem sound_rules : Sound rules { key := "global", candidates := [], optional := true } {} := by
  constructor <;> decide +kernel

def grammar : Grammar := ⟨rules, _, _, sound_rules⟩

/-- The opening phrase is followed by a slash, which does not close the comment with the star before it. -/
def text : List Char := ['/', '*', '/', '*', '/', 'a']

/-- The comment ends with the star and the slash behind its opening phrase. -/
theorem comment_ends_first : ∃ r c r₁ a o e r₂, grammar.read? {} text = some r ∧ r.tree.HasText grammar 0 comment c ∧
    c.value = "/*/" ∧ Run.Opens grammar {} text r₁ 0 comment c.part a o ∧ IsLeast (comment.ends text o) e ∧
    c = .ofText text c.part a o (comment.stop e) false ∧
    Run.Within grammar {} r₁ (text.drop o) r₂ (text.drop (comment.stop e)) ∧ r₂.inText = false := by
  have hpaths : grammar.KeepsPaths := by decide
  obtain ⟨hopened, r, hread, htexts⟩ := grammar.texts_end_first hpaths {} text
  have hroot : ((grammar.read? {} text).bind (·.tree.node? 0)).map (fun n => (n.rule, n.entries)) =
      some (0, [.capture (.ofText text 0 0 2 3 false)]) := by decide +kernel
  rw [hread, Option.bind_some, Option.map_eq_some_iff] at hroot
  obtain ⟨n, hn, hsame⟩ := hroot
  obtain ⟨hrule, hentries⟩ := Prod.mk.inj hsame
  have hhas : r.tree.HasText grammar 0 comment (.ofText text 0 0 2 3 false) :=
    ⟨n, hn, by rw [hentries]; exact List.mem_singleton_self _, by rw [hrule]; rfl⟩
  obtain ⟨r₁, a, o, hopens, ⟨e, he, hc⟩ | ⟨-, hc⟩⟩ := htexts 0 comment _ hhas
  · obtain ⟨r₂, hwithin, -, hin⟩ := (hopened _ _ _ _ _ _ hopens).1 e he
    exact ⟨r, _, r₁, a, o, e, r₂, hread, hhas, by decide, hopens, he, hc, hwithin, hin⟩
  · have hin : false = true := congrArg Capture.inText hc
    cases hin

end Slashed

end PhraseTree
