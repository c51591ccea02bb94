import PhraseTree.Proofs.Run.Conformity
import PhraseTree.Proofs.Tree.Quiet

/-!
# While a text is open

Between two characters at most one text part is open: the latest entry of the active instance.  No phrase is being read
then, and what closed a text before is not kept anywhere.  From the opening of the text to its closing every character
goes into that entry, and nothing else happens.

* `Run.Within g s r rest r' rest'` — from `r` with `rest` left the run comes to `r'` with `rest'` left, and reads every
  character in between inside an open text;
* `Run.InPlace r r'` — all that such a stretch changes;
* `Run.Reached.within`: a stretch that begins in a state of a run changes no more than that;
* `Run.Reached.text_exclusive` says all of it.
-/

namespace PhraseTree

variable {g : Grammar} {p : Phrase}

/-- **An instance in an open text takes every phrase by its latest entry**, and no new instance is tried for it. -/
theorem Node.Legal.offer_eq_of_inText {n : Node} (h : n.Legal g) (hin : n.inText = true) (p : Phrase) :
    ∃ e, n.offer g p = ⟨0, some (.replace e)⟩ := by
  obtain ⟨last, hlast, hlin⟩ : ∃ last, n.last? = some last ∧ last.inText = true := by
    simpa [Node.inText, Option.any_eq_true] using hin
  obtain ⟨hfin, part, e, hat, hsome⟩ :=
    (h.fits last (List.mem_of_mem_head? hlast)).resume_of_inText (g := g) (p := p) hlin
  have hdropped : (part.resume (g.sprout p) p last).dropped = 0 := by
    cases last with
    | child x => cases hlin
    | capture c | fork f => cases part <;> rfl
  refine ⟨e, ?_⟩
  have hoffer : n.offer g p = part.resume (g.sprout p) p last := by
    simp only [Node.offer, hlast, hfin, hat, Bool.false_eq_true, if_false, Search.orElse_eq, hsome, Option.isSome_some,
      if_true]
  rw [hoffer, ← hdropped, ← hsome]

namespace Tree

variable {t : Tree} {id : NodeId}

theorem Conforms.offer_eq_of_inText (h : t.Conforms g) (hin : t.inText id = true) (p : Phrase) :
    ∃ e, t.offer g p id = ⟨0, some (.replace e)⟩ := by
  obtain ⟨n, hn, hnin⟩ := inText_eq_true.mp hin
  rw [offer, hn]
  exact (h.legal id n hn).offer_eq_of_inText hnin p

theorem apply_replace_replace (t : Tree) (id : NodeId) (e e' : Entry) :
    ((t.apply id (.replace e)).1.apply id (.replace e')).1 = (t.apply id (.replace e')).1 :=
  congrArg Tree.mk (modify_modify t.nodes id (·.replaceLast e) (·.replaceLast e'))

theorem settle_apply_replace (t : Tree) (id : NodeId) (e : Entry) :
    (t.apply id (.replace e)).1.settle id = (t.apply id (.replace e.settled)).1 :=
  congrArg Tree.mk (modify_modify t.nodes id (·.replaceLast e)
    fun n => { n with entries := n.entries.modifyHead Entry.settled })

end Tree

namespace Run

variable {s : Settings} {text rest rest' : List Char} {r r' r₁ : Run} {taken : List Phrase} {ch : Char}

/-! ### Nothing waits between two characters -/

theorem resolve_quiet (ho : r.tree.OpenOnlyAt r.active) (hin : r.inText = false) (hq : r.tree.All fun _ n => n.Quiet)
    (must : Bool) : (r.resolve g s p must).1.tree.All fun _ n => n.Quiet :=
  resolve_tree (P := fun t _ => t.All fun _ n => n.Quiet) hq (fun ht => ht.quiet ho hin hq) s must

theorem push_quiet {kind : PhraseKind} (ho : r.tree.OpenOnlyAt r.active) (hin : r.inText = false)
    (hq : r.tree.All fun _ n => n.Quiet) : (r.push g s kind ch).tree.All fun _ n => n.Quiet := by
  have hresolve : ((r.hold .chars ch).resolve g s (r.grown .chars ch) false).1.tree.All fun _ n => n.Quiet :=
    resolve_quiet (r := r.hold .chars ch) ho hin hq false
  by_cases hkind : kind = .chars
  · subst hkind
    rw [push_chars]
    split
    · exact hresolve
    · exact hresolve
  · rw [push_eq_of_ne hkind]
    exact hq

theorem resolve_of_replace {e : Entry} (hoffer : r.tree.offer g p r.active = ⟨0, some (.replace e)⟩) (s : Settings)
    (must : Bool) :
    r.resolve g s p must =
      ({ r with
        tree := (r.tree.apply r.active (.replace e)).1
        counters := { r.counters with offered := r.counters.offered + 1 } }, true) := by
  unfold resolve
  dsimp only
  rw [hoffer]
  rfl

theorem readText_quiet (hc : r.tree.Conforms g) (hin : r.inText = true) (hq : r.tree.All fun _ n => n.Quiet) :
    (r.readText g s ch).1.tree.All fun _ n => n.Quiet := by
  obtain ⟨e, hoffer⟩ := hc.offer_eq_of_inText hin (.single .chars r.cursor ch)
  have htook : ((r.past ch).resolve g s (.single .chars r.cursor ch) true).2 = true := by
    rw [resolve_of_replace (r := r.past ch) hoffer]
  have htakes : r.tree.Takes g r.active (.single .chars r.cursor ch) (r.takeChar g s ch).tree
      (r.takeChar g s ch).active :=
    (resolve_places g s (r.past ch) (.single .chars r.cursor ch) true).takes htook
  rw [readText]
  cases hback : (r.takeChar g s ch).tree.toReread? (r.takeChar g s ch).active with
  | none =>
    rw [giveBack_of_none hback]
    exact htakes.quiet_of_toReread? hq hback
  | some back =>
    rw [giveBack_of_some hback]
    exact htakes.quiet_settle hq

theorem Reached.quiet (h : Reached g s text r taken rest) : r.tree.All fun _ n => n.Quiet := by
  induction h with
  | start => exact Tree.root_quiet
  | flush hr hin hbuffer _ ih =>
    rw [flush_of_some hbuffer]
    exact resolve_quiet (Passes.reached hr).tree_conforms.2 hin ih true
  | read hr hread ih =>
    have ho := (Passes.reached hr).tree_conforms.2
    cases hread with
    | lengthen hin | begin hin => exact push_quiet ho hin ih
    | skip =>
      unfold Run.skip
      split <;> exact ih
    | text hin => exact readText_quiet (Passes.reached hr).tree_conforms.1 hin ih

/-! ### From the opening of a text to its closing -/

/-- **The run goes on within an open text.**  From `r`, with `rest` left, it comes to `r'`, with `rest'` left, by reading
at least one character, and a text is open before each.  In `r'` the text may be closed. -/
inductive Within (g : Grammar) (s : Settings) (r : Run) : List Char → Run → List Char → Prop
  | one {ch : Char} {rest : List Char} (hin : r.inText = true) :
      Within g s r (ch :: rest) (r.step g s ch).1 ((r.step g s ch).2 ++ rest)
  | more {r₁ : Run} {ch : Char} {rest rest₁ : List Char} (h : Within g s r rest r₁ (ch :: rest₁))
      (hin : r₁.inText = true) : Within g s r rest (r₁.step g s ch).1 ((r₁.step g s ch).2 ++ rest₁)

/-- **All that happens is that the latest entry of the active instance gives way to another.**  The active instance stays
the same, no instance is made or given up, none but the active one changes, and nothing is reported. -/
def InPlace (r r' : Run) : Prop :=
  ∃ (e : Entry) (cursor : Cursor) (offered : Nat),
    r' = { r with tree := (r.tree.apply r.active (.replace e)).1, cursor, counters := { r.counters with offered } }

theorem InPlace.trans (h : r.InPlace r₁) (h₁ : r₁.InPlace r') : r.InPlace r' := by
  obtain ⟨e, cursor, offered, rfl⟩ := h
  obtain ⟨e', cursor', offered', rfl⟩ := h₁
  exact ⟨e', cursor', offered', by rw [r.tree.apply_replace_replace r.active e e']⟩

/-- What is read while a text is open makes the latest entry of the active instance give way; what this gives back is read
again. -/
theorem step_of_replace {e : Entry} (hin : r.inText = true)
    (hoffer : r.tree.offer g (.single .chars r.cursor ch) r.active = ⟨0, some (.replace e)⟩) (s : Settings) :
    r.step g s ch =
      match e.toReread? with
      | some (phrase, start) =>
        ({ r with
          tree := (r.tree.apply r.active (.replace e.settled)).1
          cursor := start
          counters := { r.counters with offered := r.counters.offered + 1 } }, phrase.toList)
      | none =>
        ({ r with
          tree := (r.tree.apply r.active (.replace e)).1
          cursor := r.cursor.advance ch
          counters := { r.counters with offered := r.counters.offered + 1 } }, []) := by
  have htake : r.takeChar g s ch =
      { r with
        tree := (r.tree.apply r.active (.replace e)).1
        cursor := r.cursor.advance ch
        counters := { r.counters with offered := r.counters.offered + 1 } } := by
    rw [takeChar, resolve_of_replace (r := r.past ch) hoffer]
    rfl
  have hback : (r.takeChar g s ch).tree.toReread? (r.takeChar g s ch).active = e.toReread? := by
    obtain ⟨n, hn, -⟩ := Tree.offer_answers (show (r.tree.offer g _ r.active).found? = some (.replace e) by rw [hoffer])
    have hn' : (r.tree.apply r.active (.replace e)).1.node? r.active = some (n.replaceLast e) := by
      simp [Tree.apply, Tree.node?_modify, hn]
    rw [htake, Tree.toReread?, hn']
    rfl
  rw [step, if_pos hin, readText, giveBack, hback, htake]
  cases e.toReread? with
  | none => rfl
  | some back =>
    dsimp only
    rw [r.tree.settle_apply_replace r.active e]

/-- **A character that is read while a text is open goes into it at once.** -/
theorem inPlace_step (hc : r.tree.Conforms g) (hin : r.inText = true) (s : Settings) (ch : Char) :
    r.InPlace (r.step g s ch).1 := by
  obtain ⟨e, hoffer⟩ := hc.offer_eq_of_inText hin (.single .chars r.cursor ch)
  rw [step_of_replace hin hoffer]
  cases e.toReread? with
  | none => exact ⟨e, _, _, rfl⟩
  | some back => exact ⟨e.settled, _, _, rfl⟩

/-- **From the opening of a text to its closing** only the entry that it is in changes. -/
theorem Reached.within (h : Reached g s text r taken rest) (hwithin : Within g s r rest r' rest') :
    (∃ taken', Reached g s text r' taken' rest') ∧ r.InPlace r' := by
  induction hwithin with
  | one hin => exact ⟨h.step, inPlace_step (Passes.reached h).tree_conforms.1 hin s _⟩
  | more _ hin ih =>
    obtain ⟨⟨taken₁, h₁⟩, hplace⟩ := ih h
    exact ⟨h₁.step, hplace.trans (inPlace_step (Passes.reached h₁).tree_conforms.1 hin s _)⟩

/-- **Text mode is exclusive.**  Take any state between two characters of a run.

* An entry is an open text only if it is the latest one of the active instance.
* A capture, be it in a branch of alternatives, is open only if the entry that holds it is, and no capture anywhere keeps
  a closing phrase that is still to be read again.
* While a text is open no phrase is being read, and whatever comes next is taken by the latest entry of the active
  instance.
* Up to the character that closes the text nothing else happens: no other instance is asked or changes, none is made, and
  nothing is reported. -/
theorem Reached.text_exclusive (h : Reached g s text r taken rest) :
    (∀ id n e, r.tree.node? id = some n → e ∈ n.entries → e.inText = true → id = r.active ∧ n.last? = some e) ∧
      (∀ id n e c, r.tree.node? id = some n → e ∈ n.entries → c ∈ e.captures →
        (c.inText = true → e.inText = true) ∧ c.handBack? = none) ∧
      (r.inText = true → r.buffer? = none ∧ ∀ p, ∃ e, r.tree.offer g p r.active = ⟨0, some (.replace e)⟩) ∧
      ∀ r' rest', Within g s r rest r' rest' → r.InPlace r' := by
  obtain ⟨hc, ho⟩ := (Passes.reached h).tree_conforms
  refine ⟨?_, ?_, ?_, ?_⟩
  · intro id n e hn he hin
    have hlast := (hc.legal id n hn).last?_of_inText he hin
    exact ⟨ho id n hn (by rw [Node.inText, hlast]; exact hin), hlast⟩
  · intro id n e c hn he hmem
    exact ⟨fun hin => ((hc.legal id n hn).fits e he).inText_of_mem hmem hin, h.quiet id n hn e he c hmem⟩
  · exact fun hin => ⟨h.buffer_of_inText hin, hc.offer_eq_of_inText hin⟩
  · exact fun r' rest' hwithin => (h.within hwithin).2

end Run

namespace Listing

/-- The run up to the quoted value of the first item. -/
def opened : Run := (Run.readAll (grammar true) {} 2 {} ['a', '<']).get (by decide +kernel)

/-- The two characters of the quoted value go into it, and the second one is given back. -/
theorem exclusive_listing : ∃ taken, Run.Reached (grammar true) {} ['a', '<', 'b', '>'] opened taken ['b', '>'] ∧
    opened.inText = true ∧ opened.buffer? = none ∧
      ∃ r', Run.Within (grammar true) {} opened ['b', '>'] r' ['>'] ∧ r'.inText = false ∧ opened.InPlace r' := by
  have hread : Run.readAll (grammar true) {} 2 {} ['a', '<'] = some opened := (Option.some_get _).symm
  have hstart : Run.Reached (grammar true) {} ['a', '<', 'b', '>'] {} [] (['a', '<'] ++ ['b', '>']) := .start
  obtain ⟨taken, hreached⟩ := hstart.readAll hread
  have hin : opened.inText = true := by decide +kernel
  have hin' : (opened.step (grammar true) {} 'b').1.inText = true := by decide +kernel
  have hagain : (opened.step (grammar true) {} 'b').2 = [] := by decide +kernel
  have hfirst : Run.Within (grammar true) {} opened ['b', '>'] (opened.step (grammar true) {} 'b').1 ['>'] := by
    have hone : Run.Within (grammar true) {} opened ['b', '>'] _ ((opened.step (grammar true) {} 'b').2 ++ ['>']) :=
      .one hin
    rwa [hagain] at hone
  have hback : ((opened.step (grammar true) {} 'b').1.step (grammar true) {} '>').2 = ['>'] := by decide +kernel
  have hclosed : ((opened.step (grammar true) {} 'b').1.step (grammar true) {} '>').1.inText = false := by
    decide +kernel
  have hwithin := hfirst.more hin'
  rw [hback] at hwithin
  obtain ⟨-, -, hopen, hplace⟩ := hreached.text_exclusive
  exact ⟨taken, hreached, hin, (hopen hin).1, _, hwithin, hclosed, hplace _ _ hwithin⟩

end Listing

end PhraseTree
