import PhraseTree.Proofs.Run.Conformity
import PhraseTree.Proofs.Run.Lockstep
import PhraseTree.Proofs.Tree.Shift

/-!
# White space between phrases

Two runs are compared.  Up to some state they are one and the same run; from there on both read the same text, but the
second stands elsewhere, because it has passed over white space.

* `Run.Shifted σ r₀ a b` — `a` and `b` come from `r₀`, where `b` stood at `σ.there`: what was recorded up to `r₀` is
  the same in both, what was recorded later is the same but for its place;
* `Run.Shifted.resolve`, `Run.Shifted.lockstep`, `Run.Shifted.readAll`, `Run.Shifted.finish` — so it stays whatever both
  read;
* `CharClasses.BlankFree` — no phrase may hold white space; then a run that is neither in a phrase nor in a text passes
  over it (`Run.readAll_blanks`).

`Grammar.blanks_immaterial`: white space between phrases moves what follows, and does nothing else.
-/

namespace PhraseTree

/-- The same report, about something read elsewhere. -/
structure Diagnostic.Shifted (σ : Shift) (d d' : Diagnostic) : Prop where
  span : d.span.Shifted σ d'.span
  content : d'.content = d.content
  reason : d'.reason = d.reason
  trail : d'.trail = d.trail

/-- **The same run, elsewhere in the text since it left `r₀`.** -/
structure Run.Shifted (σ : Shift) (r₀ a b : Run) : Prop where
  tree : a.tree.Shifted σ r₀.tree.Records b.tree
  active : b.active = a.active
  buffer : Option.Rel (Phrase.Shifted σ) a.buffer? b.buffer?
  cursor : σ.Carries a.cursor b.cursor
  reports : ∃ new new', a.reports = new ++ r₀.reports ∧ b.reports = new' ++ r₀.reports ∧
    List.Forall₂ (Diagnostic.Shifted σ) new new'
  counters : b.counters = a.counters

namespace Run

variable {σ : Shift} {g : Grammar} {s : Settings} {r r₀ a b : Run} {p q : Phrase} {must taken : Bool} {ch : Char}
  {kind : PhraseKind} {id id' : NodeId} {c c' : Change} {depth : Nat} {chars : List Char}

/-- What the same character goes into elsewhere is the same phrase. -/
theorem grown_shifted (hbuffer : Option.Rel (Phrase.Shifted σ) a.buffer? b.buffer?)
    (hcursor : σ.Carries a.cursor b.cursor) (kind : PhraseKind) (ch : Char) :
    (a.grown kind ch).Shifted σ (b.grown kind ch) := by
  unfold grown
  generalize a.buffer? = p?, b.buffer? = q? at hbuffer
  cases hbuffer with
  | none => exact .single hcursor kind ch
  | some hp => exact hp.push ch

namespace Shifted

/-! ### Placing a phrase -/

theorem inText_eq (h : Shifted σ r₀ a b) : b.inText = a.inText := by
  unfold Run.inText
  rw [h.active, h.tree.inText_eq]

/-- Both runs count alike. -/
theorem count (h : Shifted σ r₀ a b) (f : Counters → Counters) :
    Shifted σ r₀ { a with counters := f a.counters } { b with counters := f b.counters } :=
  { h with counters := congrArg f h.counters }

theorem report {d d' : Diagnostic} (h : Shifted σ r₀ a b) (hd : d.Shifted σ d') :
    Shifted σ r₀ (a.report d) (b.report d') := by
  obtain ⟨new, new', hnew, hnew', hrel⟩ := h.reports
  refine { h.count fun k => { k with reported := k.reported + 1 } with reports := ⟨d :: new, d' :: new', ?_, ?_, ?_⟩ }
  · exact congrArg (d :: ·) hnew
  · exact congrArg (d' :: ·) hnew'
  · exact .cons hd hrel

theorem tally (h : Shifted σ r₀ a b) (dropped made : Nat) :
    Shifted σ r₀ (a.tally dropped made) (b.tally dropped made) :=
  h.count fun k => { k with created := k.created + dropped + made, dropped := k.dropped + dropped }

theorem change (h : Shifted σ r₀ a b) (hid : id' = id) (hc : c.Later σ (r₀.tree.Records id) c') :
    Shifted σ r₀ (a.change id c) (b.change id' c') := by
  subst hid
  obtain ⟨htree, hactive⟩ := h.tree.apply hc
  exact { h with tree := htree, active := hactive }

theorem adopt {growth growth' : Growth} (h : Shifted σ r₀ a b) (hgrowth : growth.Later σ growth') (g : Grammar)
    (rule : RuleId) : Shifted σ r₀ (a.adopt g rule growth) (b.adopt g rule growth') := by
  obtain ⟨htree, hactive⟩ := h.tree.adopt hgrowth g a.active rule
  unfold Run.adopt
  rw [h.active]
  exact { h with tree := htree, active := hactive }

theorem trail_eq (h : Shifted σ r₀ a b) (g : Grammar) (s : Settings) (ids : List NodeId) :
    trail g s b.tree ids = trail g s a.tree ids := by
  unfold trail
  rw [h.tree.place_eq]

theorem reportLeaving (h : Shifted σ r₀ a b) (hp : p.Shifted σ q) (g : Grammar) (s : Settings) (must taken : Bool)
    (l : Leaving) :
    Shifted σ r₀ (Run.reportLeaving g s a p must taken l) (Run.reportLeaving g s b q must taken l) := by
  have hreason : ∀ (reason : Reason) (trail : List Place),
      (Diagnostic.mk p.span p.text reason trail).Shifted σ ⟨q.span, q.text, reason, trail⟩ :=
    fun _ _ => ⟨hp.span, hp.text, rfl, rfl⟩
  -- the phrase itself may be reported first
  have hphrase : ∀ (cond : Bool) (reason : Reason) (trail : List Place),
      Shifted σ r₀ (if cond then a.report ⟨p.span, p.text, reason, trail⟩ else a)
        (if cond then b.report ⟨q.span, q.text, reason, trail⟩ else b) := by
    intro cond reason trail
    split
    · exact h.report (hreason reason trail)
    · exact h
  unfold Run.reportLeaving
  rw [h.trail_eq]
  cases l.unfinished? with
  | none => exact hphrase _ _ _
  | some place =>
    dsimp only
    split
    · exact (hphrase _ _ _).report (hreason _ _)
    · exact hphrase _ _ _

theorem offer (h : Shifted σ r₀ a b) (hp : p.Shifted σ q) (g : Grammar) :
    (a.tree.offer g p a.active).Along (Change.Later σ (r₀.tree.Records a.active)) (b.tree.offer g q b.active) := by
  rw [h.active]
  exact h.tree.offer hp g a.active

/-- **A phrase is placed alike**, wherever it is read. -/
theorem resolve (h : Shifted σ r₀ a b) (hp : p.Shifted σ q) (g : Grammar) (s : Settings) (must : Bool) :
    Shifted σ r₀ (a.resolve g s p must).1 (b.resolve g s q must).1 ∧
      (b.resolve g s q must).2 = (a.resolve g s p must).2 := by
  have hoffered := h.count fun k => { k with offered := k.offered + 1 }
  obtain ⟨hdglobal, hglobal⟩ := offerGlobal_later g hp
  obtain ⟨hdown, hown⟩ := h.offer hp g
  have hclimb : (a.tree.climb g p a.active).Along σ r₀.tree.Records (b.tree.climb g q b.active) := by
    rw [h.active]
    exact h.tree.climb hp g a.active
  have hleaving : b.tree.leaving g b.active (b.tree.climb g q b.active) =
      a.tree.leaving g a.active (a.tree.climb g p a.active) := by
    rw [h.tree.leaving_eq hclimb, h.active]
  have htaken := hclimb.taken
  unfold Run.resolve
  dsimp only
  rw [hleaving, hdown, hdglobal, hclimb.dropped]
  generalize (a.tree.offer g p a.active).found? = own, (b.tree.offer g q b.active).found? = own' at hown ⊢
  cases hown with
  | some hc =>
    dsimp only
    rw [hc.made_eq]
    exact ⟨(hoffered.tally _ _).change h.active hc, rfl⟩
  | none =>
    generalize (Tree.offerGlobal g p).found? = global, (Tree.offerGlobal g q).found? = global' at hglobal ⊢
    cases hglobal with
    | some hx =>
      obtain ⟨hrule, hgrowth⟩ := hx
      dsimp only
      rw [hrule, hgrowth.depth_eq]
      have hcounted := hoffered.count fun k => { k with globalFallbacks := k.globalFallbacks + 1 }
      exact ⟨(hcounted.tally _ _).adopt hgrowth g _, rfl⟩
    | none =>
      generalize (a.tree.climb g p a.active).taken? = taken, (b.tree.climb g q b.active).taken? = taken' at htaken ⊢
      cases htaken with
      | some hx =>
        obtain ⟨hid, hc⟩ := hx
        dsimp only
        rw [hc.made_eq]
        have hcounted := hoffered.count fun k => { k with ancestorFallbacks := k.ancestorFallbacks + 1 }
        exact ⟨((hcounted.tally _ _).change hid hc).reportLeaving hp g s must true _, rfl⟩
      | none => exact ⟨(hoffered.tally _ 0).reportLeaving hp g s must false _, rfl⟩

/-! ### Reading -/

theorem clear (h : Shifted σ r₀ a b) : Shifted σ r₀ { a with buffer? := none } { b with buffer? := none } :=
  { h with buffer := .none }

theorem past (h : Shifted σ r₀ a b) (ch : Char) : Shifted σ r₀ (a.past ch) (b.past ch) :=
  { h with cursor := (h.cursor.advance ch).carries }

theorem hold (h : Shifted σ r₀ a b) (kind : PhraseKind) (ch : Char) : Shifted σ r₀ (a.hold kind ch) (b.hold kind ch) :=
  { h with buffer := .some (grown_shifted h.buffer h.cursor kind ch), cursor := (h.cursor.advance ch).carries }

theorem push (h : Shifted σ r₀ a b) (g : Grammar) (s : Settings) (kind : PhraseKind) (ch : Char) :
    Shifted σ r₀ (a.push g s kind ch) (b.push g s kind ch) := by
  by_cases hkind : kind = .chars
  · subst hkind
    obtain ⟨hresolve, htaken⟩ := (h.hold .chars ch).resolve (grown_shifted h.buffer h.cursor .chars ch) g s
      false
    rw [push_chars, push_chars, htaken]
    split
    · exact hresolve.clear
    · exact hresolve
  · rw [push_eq_of_ne hkind, push_eq_of_ne hkind]
    exact h.hold kind ch

theorem skip (h : Shifted σ r₀ a b) (ch : Char) : Shifted σ r₀ (a.skip ch) (b.skip ch) := by
  unfold Run.skip
  split
  · exact h.past ch
  · exact (h.past ch).report ⟨⟨h.cursor, (h.cursor.advance ch).carries⟩, rfl, rfl, rfl⟩

theorem flush (h : Shifted σ r₀ a b) (g : Grammar) (s : Settings) : Shifted σ r₀ (a.flush g s) (b.flush g s) := by
  have hbuffer := h.buffer
  unfold Run.flush
  generalize a.buffer? = p?, b.buffer? = q? at hbuffer
  cases hbuffer with
  | none => exact h
  | some hp => exact (h.resolve hp g s true).1.clear

/-- What is given back is the same, and it is read again elsewhere. -/
theorem giveBack (h : Shifted σ r₀ a b)
    (hlast : Option.Rel (Entry.Later σ (r₀.tree.Records a.active)) (a.tree.last? a.active) (b.tree.last? b.active)) :
    Shifted σ r₀ a.giveBack.1 b.giveBack.1 ∧ b.giveBack.2 = a.giveBack.2 := by
  have hsettle : (a.tree.settle a.active).Shifted σ r₀.tree.Records (b.tree.settle b.active) := by
    rw [h.active] at hlast ⊢
    exact h.tree.settle hlast
  have hback : Option.Rel σ.Rereads (a.tree.toReread? a.active) (b.tree.toReread? b.active) := by
    rw [h.active] at hlast ⊢
    exact Tree.Shifted.toReread? hlast
  unfold Run.giveBack
  generalize a.tree.toReread? a.active = back, b.tree.toReread? b.active = back' at hback ⊢
  cases hback with
  | none => exact ⟨h, rfl⟩
  | some hx => exact ⟨{ h with tree := hsettle, cursor := hx.2 }, congrArg String.toList hx.1⟩

end Shifted

/-- Where the active instance lets its latest entry give way, that entry is the latest one then. -/
theorem last?_of_replace {e : Entry} (h : (r.tree.offer g p r.active).found? = some (.replace e)) (s : Settings)
    (must : Bool) :
    (r.resolve g s p must).1.active = r.active ∧
      (r.resolve g s p must).1.tree.last? (r.resolve g s p must).1.active = some e := by
  obtain ⟨n, hn, -⟩ := Tree.offer_answers h
  have hresolve : (r.resolve g s p must).1.tree = (r.tree.apply r.active (.replace e)).1 ∧
      (r.resolve g s p must).1.active = r.active := by
    simp only [resolve, h]
    exact ⟨rfl, rfl⟩
  obtain ⟨htree, hactive⟩ := hresolve
  refine ⟨hactive, ?_⟩
  rw [htree, hactive, Tree.last?_apply_replace hn]

namespace Shifted

/-- **A text takes a character alike and gives back alike.**  The entry that takes the character goes on with it, so the
place from where something is read again is one that the shift carries. -/
theorem readText (h : Shifted σ r₀ a b) (hc : a.tree.Conforms g) (hin : a.inText = true) (s : Settings) (ch : Char) :
    Shifted σ r₀ (a.readText g s ch).1 (b.readText g s ch).1 ∧ (b.readText g s ch).2 = (a.readText g s ch).2 := by
  have hp : (Phrase.single .chars a.cursor ch).Shifted σ (.single .chars b.cursor ch) := .single h.cursor .chars ch
  obtain ⟨e, hown⟩ := hc.offer_of_inText hin (.single .chars a.cursor ch)
  have hanswer := (h.offer hp g).found
  rw [hown] at hanswer
  generalize hown' : (b.tree.offer g (.single .chars b.cursor ch) b.active).found? = found at hanswer
  cases hanswer with
  | some hlater =>
    cases hlater with
    | replace hlater =>
      obtain ⟨hactive, hlast⟩ := last?_of_replace (r := a.past ch) hown s true
      obtain ⟨-, hlast'⟩ := last?_of_replace (r := b.past ch) hown' s true
      refine ((h.past ch).resolve hp g s true).1.giveBack ?_
      rw [hlast, hlast', hactive]
      exact .some hlater

/-- **Both runs go on in lockstep.** -/
theorem lockstep (g : Grammar) (s : Settings) (σ : Shift) (r₀ : Run) :
    Lockstep g g s s fun _ a b => Shifted σ r₀ a b ∧ a.tree.Conforms g where
  classes := rfl
  inText h := h.1.inText_eq
  kind h := map_eq_of_rel h.1.buffer fun _ _ hp => hp.kind
  push := by
    rintro ch rest a b kind ⟨h, hc⟩ hin hfeeds
    exact ⟨h.push g s kind ch, (hfeeds.reads hin s []).conforms hc⟩
  skip := by
    rintro ch rest a b ⟨h, hc⟩ hin hbuffer hstarts
    have hread : Reads g s a [] ch (a.skip ch) [] [] := .skip hin hbuffer hstarts
    exact ⟨h.skip ch, hread.conforms hc⟩
  flush := by
    rintro rest a b ⟨h, hc⟩ hin hstops
    exact ⟨h.flush g s, flush_conforms hc s⟩
  readText := by
    rintro ch rest a b ⟨h, hc⟩ hin
    obtain ⟨htext, hagain⟩ := h.readText hc hin s ch
    have hread : Reads g s a [] ch (a.readText g s ch).1 _ _ := .text hin
    exact ⟨hagain, htext, hread.conforms hc⟩

/-- **Reading takes both runs on alike.**  Either both come to the end of what they read or neither does. -/
theorem readAll (h : Shifted σ r₀ a b) (hc : a.tree.Conforms g) (s : Settings) (depth : Nat) (chars : List Char) :
    Option.Rel (fun a b => Shifted σ r₀ a b ∧ a.tree.Conforms g) (Run.readAll g s depth a chars)
      (Run.readAll g s depth b chars) :=
  (lockstep g s σ r₀).readAll depth chars [] ⟨h, hc⟩

theorem reportEnd (h : Shifted σ r₀ a b) (g : Grammar) (s : Settings) :
    Shifted σ r₀ (a.reportEnd g s) (b.reportEnd g s) := by
  have hchain : b.tree.chain b.active = a.tree.chain a.active := by
    unfold Tree.chain
    rw [h.active, h.tree.ancestors_eq]
  unfold Run.reportEnd
  dsimp only
  rw [hchain, h.tree.needsMore_eq, h.tree.place_eq, h.trail_eq]
  split
  · exact h.report ⟨⟨h.cursor, h.cursor⟩, rfl, rfl, rfl⟩
  · exact h

theorem finish (h : Shifted σ r₀ a b) (g : Grammar) (s : Settings) : Shifted σ r₀ (a.finish g s) (b.finish g s) := by
  unfold Run.finish
  dsimp only
  split
  · exact (h.flush g s).reportEnd g s
  · exact h.flush g s

end Shifted

end Run

/-! ### Passing over white space -/

/-- None of the declared sets holds a white space character. -/
def CharClasses.BlankFree (k : CharClasses) : Prop :=
  ∀ set ∈ k.declared, ∀ ch, Text.isBlank ch = true → set.contains ch = false

theorem CharClasses.BlankFree.startingKind {k : CharClasses} (h : k.BlankFree) {ch : Char}
    (hblank : Text.isBlank ch = true) : k.startingKind ch = none := by
  have hword : k.startsWord ch = false := h k.wordStart (by simp [declared]) ch hblank
  have hnumber : k.startsNumber ch = false := h k.numberStart (by simp [declared]) ch hblank
  have hvalid : k.valid.contains ch = false := h k.valid (by simp [declared]) ch hblank
  simp [CharClasses.startingKind, hword, hnumber, hvalid]

/-- A set of printable ASCII characters holds no white space. -/
theorem CharSet.contains_blank {set : CharSet} (h : ∀ range ∈ set.ranges, '!' ≤ range.first ∧ range.last ≤ '~')
    {ch : Char} (hblank : Text.isBlank ch = true) : set.contains ch = false := by
  refine List.any_eq_false.mpr fun range hmem hrange => ?_
  obtain ⟨hfirst, hlast⟩ := h range hmem
  simp only [CharRange.contains, Bool.and_eq_true, decide_eq_true_eq] at hrange
  have hlow : 33 ≤ ch.toNat := hfirst.trans hrange.1
  have hhigh : ch.toNat ≤ 126 := hrange.2.trans hlast
  simp [Text.isBlank, Text.inRanges, Text.blankRanges] at hblank
  omega

/-- The sets that are used where none is declared hold no white space. -/
theorem CharClasses.blankFree_default : ({} : CharClasses).BlankFree := by
  have hascii : ∀ set ∈ ({} : CharClasses).declared, ∀ range ∈ set.ranges, '!' ≤ range.first ∧ range.last ≤ '~' := by
    decide
  exact fun set hset _ hblank => CharSet.contains_blank (hascii set hset) hblank

namespace Run

variable {g : Grammar} {s : Settings} {r : Run} {depth : Nat}

/-- **White space between phrases** moves the cursor and nothing else. -/
theorem readAll_blanks (hfree : g.classes.BlankFree) (hbuffer : r.buffer? = none) (hin : r.inText = false)
    (hdepth : 0 < depth) {w : List Char} (hblank : ∀ ch ∈ w, Text.isBlank ch = true) :
    readAll g s depth r w = some { r with cursor := r.cursor.advanceOver w } := by
  obtain ⟨depth, rfl⟩ := Nat.exists_eq_succ_of_ne_zero (Nat.pos_iff_ne_zero.mp hdepth)
  induction w generalizing r with
  | nil => rfl
  | cons ch w ih =>
    have hch := hblank ch List.mem_cons_self
    have hstep : r.step g s ch = (r.past ch, []) := by
      simp [step, hin, hbuffer, openWith, hfree.startingKind hch, skip, hch]
    rw [readAll_cons, readChar_succ, hstep]
    show readAll g s _ (r.past ch) w = _
    rw [ih (r := r.past ch) hbuffer hin fun c hc => hblank c (List.mem_cons_of_mem _ hc)]
    rfl

/-- A run without open texts that is moved within the text is the same run elsewhere. -/
theorem Shifted.start (hclosed : ∀ id c, r.tree.Records id c → c.inText = false) (hbuffer : r.buffer? = none)
    (there : Cursor) : Shifted ⟨r.cursor, there⟩ r r { r with cursor := there } where
  tree := .refl hclosed
  active := rfl
  buffer := by rw [hbuffer]; exact .none
  cursor := Shift.carries_start ⟨r.cursor, there⟩
  reports := ⟨[], [], rfl, rfl, .nil⟩
  counters := rfl

end Run

/-- **Positions decide nothing, and white space between phrases is immaterial.**  Let a run over `u` come to a state `r`
in which no phrase is being read and no text is open, and let `w` be white space, which no phrase may hold.

* What follows is read alike, wherever the cursor is put.
* `u ++ w ++ v` comes to its end if and only if `u ++ v` does, whatever the nesting is bounded by, and the results are
  the same: the same instances with the same rules, parents, children, values, flags and separators, the same reports
  with the same contents, reasons and trails, the same counts.  Only spans differ: what was recorded up to `r` is left
  as it was, and what was recorded later stands where it would if the cursor had first been moved over `w`.
* So it is with the results of the two texts. -/
theorem Grammar.blanks_immaterial {g : Grammar} {s : Settings} {u v w : List Char} {depth₀ : Nat} {r : Run}
    (hfree : g.classes.BlankFree) (hread : Run.readAll g s depth₀ {} u = some r) (hbuffer : r.buffer? = none)
    (hin : r.inText = false) (hblank : ∀ ch ∈ w, Text.isBlank ch = true) :
    (∀ there depth, Option.Rel (Run.Shifted ⟨r.cursor, there⟩ r) ((Run.readAll g s depth r v).map (Run.finish g s))
      ((Run.readAll g s depth { r with cursor := there } v).map (Run.finish g s))) ∧
    (∀ depth, 0 < depth → Option.Rel (Run.Shifted ⟨r.cursor, r.cursor.advanceOver w⟩ r)
      ((Run.readAll g s depth {} (u ++ v)).map (Run.finish g s))
      ((Run.readAll g s depth {} (u ++ w ++ v)).map (Run.finish g s))) ∧
    ∀ a, g.read? s (u ++ v) = some a →
      ∃ b, g.read? s (u ++ w ++ v) = some b ∧ Run.Shifted ⟨r.cursor, r.cursor.advanceOver w⟩ r a b := by
  have hstart : Run.Reached g s u {} [] (u ++ []) := by rw [List.append_nil]; exact .start
  obtain ⟨taken, hreached⟩ := hstart.readAll hread
  obtain ⟨hconforms, hopen⟩ := Run.Passes.tree_conforms (.reached hreached)
  have hmoved : ∀ there depth, Option.Rel (Run.Shifted ⟨r.cursor, there⟩ r)
      ((Run.readAll g s depth r v).map (Run.finish g s))
      ((Run.readAll g s depth { r with cursor := there } v).map (Run.finish g s)) := by
    intro there depth
    have hshifted := Run.Shifted.start (fun _ _ hc => hc.inText_eq_false hconforms hopen hin) hbuffer there
    exact rel_map (hshifted.readAll hconforms s depth v) fun _ _ h => h.1.finish g s
  have hspaced : ∀ depth, 0 < depth → Option.Rel (Run.Shifted ⟨r.cursor, r.cursor.advanceOver w⟩ r)
      ((Run.readAll g s depth {} (u ++ v)).map (Run.finish g s))
      ((Run.readAll g s depth {} (u ++ w ++ v)).map (Run.finish g s)) := by
    intro depth hdepth
    rw [Run.readAll_append, Run.readAll_append, Run.readAll_append]
    cases hu : Run.readAll g s depth {} u with
    | none => exact .none
    | some r' =>
      cases Run.readAll_inj hu hread
      rw [Option.bind_some, Option.bind_some, Run.readAll_blanks hfree hbuffer hin hdepth hblank, Option.bind_some]
      exact hmoved _ depth
  refine ⟨hmoved, hspaced, fun a ha => ?_⟩
  exact Grammar.read?_rel (by simp only [List.length_append]; omega) (hspaced _ (Nat.succ_pos _)) ha

namespace Listing

/-- A line feed before the number of an item moves the number to the next line. -/
theorem moved_listing : ∃ r a b, Run.readAll (grammar true) {} 1 {} ['a', ' '] = some r ∧ r.buffer? = none ∧
    r.inText = false ∧ (grammar true).read? {} (['a', ' '] ++ ['1']) = some a ∧
      (grammar true).read? {} (['a', ' '] ++ ['\n'] ++ ['1']) = some b ∧ Run.Shifted ⟨⟨1, 3⟩, ⟨2, 1⟩⟩ r a b := by
  have hstops : ∃ r, Run.readAll (grammar true) {} 1 {} ['a', ' '] = some r ∧ r.buffer? = none ∧ r.inText = false ∧
      r.cursor = ⟨1, 3⟩ := by
    have hsome : (Run.readAll (grammar true) {} 1 {} ['a', ' ']).any
        (fun r => r.buffer?.isNone && !r.inText && decide (r.cursor = ⟨1, 3⟩)) = true := by decide +kernel
    cases hread : Run.readAll (grammar true) {} 1 {} ['a', ' '] with
    | none => simp [hread] at hsome
    | some r => exact ⟨r, rfl, by simpa [hread, and_assoc] using hsome⟩
  obtain ⟨r, hread, hbuffer, hin, hcursor⟩ := hstops
  have hends : ((grammar true).read? {} (['a', ' '] ++ ['1'])).isSome = true := by decide +kernel
  obtain ⟨a, ha⟩ := Option.isSome_iff_exists.mp hends
  obtain ⟨-, -, hsame⟩ := Grammar.blanks_immaterial (v := ['1']) (w := ['\n']) CharClasses.blankFree_default hread hbuffer
    hin (List.forall_mem_singleton.mpr (by decide))
  obtain ⟨b, hb, hab⟩ := hsame a ha
  rw [hcursor] at hab
  exact ⟨r, a, b, hread, hbuffer, hin, ha, hb, hab⟩

end Listing
end PhraseTree
