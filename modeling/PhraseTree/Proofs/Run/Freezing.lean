import PhraseTree.Proofs.Run.Arrangement

/-!
# What a run is done with stays as it is

Where a phrase is taken, one instance changes and new ones are made below it; the innermost of these is the next active
instance.  The one that changes is the active instance or stands around it.  So the instances that do not stand around
the active one stay as they are for the rest of the run, and none of them becomes active again.

* `Tree.Absorbs g p t active id n n'` — which instance changes, and how;
* `Run.Turn g s text r p must r' rest` — the run places a phrase and goes on from there; nothing else changes the tree
  (`Run.Reached.turn_of_read`);
* `Run.Resolves.absorbs`, `Run.Later.frozen`: what one phrase changes, and what the rest of the run leaves alone;
  `Run.Turn.changes_one` says both.
-/

namespace PhraseTree

variable {g : Grammar} {p : Phrase}

theorem Node.Answers.changes {n : Node} {change : Change} (h : n.Answers g p change) (hlegal : n.Legal g)
    (hp : p.text ≠ "") (base : Nat) : change.on base n ≠ n := by
  have hreplaced : ∀ {e e' : Entry}, n.last? = some e → e' ≠ e → n.replaceLast e' ≠ n := by
    intro e e' hlast hne hsame
    have hlast' : (n.replaceLast e').last? = some e' := rfl
    rw [hsame, hlast] at hlast'
    exact hne (Option.some.inj hlast').symm
  cases h with
  | capture hlast hfin hat hresume =>
    refine hreplaced hlast fun hsame => ?_
    exact SimplePart.resume?_ne hresume hp (Entry.capture.inj hsame)
  | @fork f f' a hlast hat hresume =>
    refine hreplaced hlast fun hsame => ?_
    obtain ⟨a', hat', hf⟩ := hlegal.fits (.fork f) (List.mem_of_mem_head? hlast)
    cases hat.symm.trans hat'
    exact Alternatives.resume?_ne hf hresume hp (Entry.fork.inj hsame)
  | @separator x c hlast hat hdue hsep =>
    refine hreplaced hlast fun hsame => ?_
    have hflag : true = x.separated := congrArg (fun x : Child => x.separated) (Entry.child.inj hsame)
    rw [hdue] at hflag
    cases hflag
  | again | first | onward => exact fun hsame => List.cons_ne_self _ _ (congrArg Node.entries hsame)

namespace Tree

variable {t t' : Tree} {active id taker depth j : Nat} {n n' m : Node}

/-- **The instance that changes where `p` is taken**, and how: the active one, if it takes the phrase itself or a global
rule does on its behalf, else the nearest one around it that does not refuse the phrase. -/
inductive Absorbs (g : Grammar) (p : Phrase) (t : Tree) (active : Nat) : Nat → Node → Node → Prop
  | own {n n' : Node} (htakes : (t.offer g p active).found?.isSome = true) (h : n.Alters n') :
      t.Absorbs g p active active n n'
  | global {n : Node} {x : Child} (hown : (t.offer g p active).found? = none)
      (htakes : (offerGlobal g p).found?.isSome = true) : t.Absorbs g p active active n (n.pushGlobal x)
  | ancestor {id : Nat} {n n' : Node} {refused rest : List Nat} (hown : (t.offer g p active).found? = none)
      (hglobal : (offerGlobal g p).found? = none) (haround : t.ancestors active = refused ++ id :: rest)
      (hrefused : ∀ j ∈ refused, (t.offer g p j).found? = none) (htakes : (t.offer g p id).found?.isSome = true)
      (h : n.Alters n') : t.Absorbs g p active id n n'

/-- A graft around the active instance leaves all others alone, and they do not stand around the taker. -/
theorem Graft.off_chain (h : t.Graft id n n' depth t' taker) (ho : t.Ordered) (hid : id ∈ t.chain active)
    (hj : t.node? j = some m) (hoff : j ∉ t.chain active) : t'.node? j = some m ∧ j ∉ t'.chain taker := by
  have hlt : j < t.size := lt_size_of_node? hj
  refine ⟨?_, ?_⟩
  · rw [h.others j hlt (by rintro rfl; exact hoff hid)]
    exact hj
  · rw [h.mem_chain_taker ho]
    rintro (hmem | ⟨hle, -⟩)
    · exact hoff (ho.chain_subset hid j hmem)
    · omega

end Tree

namespace Run

variable {s : Settings} {text rest : List Char} {r r' r'' : Run} {must taken : Bool}

/-! ### One phrase -/

/-- **A phrase that is taken changes just one instance**, and the new ones hang below it in a line. -/
theorem Resolves.absorbs (h : Resolves g s p must r r' true) (ha : r.tree.Arranged r.active)
    (hc : r.tree.Conforms g) (hp : p.text ≠ "") :
    ∃ id n n' depth, r.tree.Absorbs g p r.active id n n' ∧ n' ≠ n ∧ r.tree.Graft id n n' depth r'.tree r'.active := by
  cases h with
  | own hown =>
    obtain ⟨n, hn, hanswers⟩ := Tree.offer_answers hown
    have hchanges := hanswers.changes (hc.legal _ n hn) hp r.tree.size
    exact ⟨r.active, n, _, _, .own (by simp [hown]) (hanswers.alters _), hchanges, Tree.graft_apply hn hanswers⟩
  | global hown hglobal =>
    obtain ⟨n, hn⟩ := Tree.node?_of_lt ha.active_lt
    obtain ⟨x, hgraft⟩ := Tree.graft_adopt g hn _ _
    have hchanges : n.pushGlobal x ≠ n := fun hsame => List.cons_ne_self _ _ (congrArg Node.globals hsame)
    exact ⟨r.active, n, _, _, .global hown (by simp [hglobal]), hchanges, hgraft⟩
  | @ancestor id change counters hown hglobal htaken =>
    obtain ⟨new, reported, heq, -, -⟩ := reportLeaving_eq (g := g) (s := s) (p := p) _
    rw [heq]
    rw [Tree.climb_eq] at htaken
    obtain ⟨-, hfound⟩ := Tree.offerInOrder_spec htaken
    obtain ⟨rest, haround, hrefused⟩ := Tree.offerInOrder_refused htaken
    obtain ⟨n, hn, hanswers⟩ := Tree.offer_answers hfound
    have hchanges := hanswers.changes (hc.legal _ n hn) hp r.tree.size
    exact ⟨id, n, _, _, .ancestor hown hglobal haround hrefused (by simp [hfound]) (hanswers.alters _), hchanges,
      Tree.graft_apply hn hanswers⟩

/-! ### The rest of the run -/

/-- The instance `id` is `n`, and does not stand around the active one. -/
structure Done (id : Nat) (n : Node) (r : Run) : Prop where
  arranged : r.tree.Arranged r.active
  node : r.tree.node? id = some n
  off : id ∉ r.tree.chain r.active

theorem Done.congr {id : Nat} {n : Node} (h : r.Done id n) (htree : r'.tree = r.tree) (hactive : r'.active = r.active) :
    r'.Done id n := by
  obtain ⟨harranged, hnode, hoff⟩ := h
  rw [← htree, ← hactive] at harranged hoff
  exact ⟨harranged, by rw [htree]; exact hnode, hoff⟩

theorem Done.resolve {id : Nat} {n : Node} (h : r.Done id n) : (r.resolve g s p must).1.Done id n := by
  have hplaces := resolve_places g s r p must
  cases htook : (r.resolve g s p must).2 with
  | true =>
    obtain ⟨j, hj, _, _, _, hgraft⟩ := (hplaces.takes htook).graft h.arranged.active_lt
    obtain ⟨hnode, hoff⟩ := hgraft.off_chain h.arranged.ordered hj h.node h.off
    exact ⟨resolve_arranged h.arranged g s p must, hnode, hoff⟩
  | false =>
    obtain ⟨htree, hactive, -⟩ := hplaces.refuses htook
    exact h.congr htree hactive

theorem Done.settle {id : Nat} {n : Node} (h : r.Done id n) :
    Done id n { r with tree := r.tree.settle r.active } := by
  obtain ⟨m, hm⟩ := Tree.node?_of_lt h.arranged.active_lt
  obtain ⟨hnode, hoff⟩ :=
    (Tree.graft_settle hm).off_chain h.arranged.ordered (r.tree.mem_chain_self r.active) h.node h.off
  exact ⟨h.arranged.settle, hnode, hoff⟩

/-- **An instance that does not stand around the active one stays as it is**, and does not become active again. -/
theorem Later.done {id : Nat} {n : Node} (h : Later g s r rest r') (hdone : r.Done id n) : r'.Done id n :=
  h.rule (P := Done id n) (fun hr => hr.congr rfl rfl) Done.resolve Done.settle (fun _ hr => hr.congr rfl rfl) hdone

/-! ### Turns -/

/-- **A turn of the run over `text`**: it places `p` in the state `r`, and goes on from `r'` with `rest` left. -/
inductive Turn (g : Grammar) (s : Settings) (text : List Char) : Run → Phrase → Bool → Run → List Char → Prop
  /-- The phrase being read is complete. -/
  | flush {r : Run} {taken : List Phrase} {rest : List Char} {p : Phrase} (h : Reached g s text r taken rest)
      (hin : r.inText = false) (hbuffer : r.buffer? = some p)
      (hend : ∀ ch ∈ rest.head?, g.classes.continues p.kind ch = false) :
      Turn g s text r p true (r.flush g s) rest
  /-- A run of other characters begins or grows, and may grow further. -/
  | push {r : Run} {taken : List Phrase} {ch : Char} {rest : List Char} (h : Reached g s text r taken (ch :: rest))
      (hin : r.inText = false)
      (hgrows : (r.buffer? = none ∧ g.classes.startingKind ch = some .chars) ∨
        ∃ p, r.buffer? = some p ∧ p.kind = .chars ∧ g.classes.continues .chars ch = true) :
      Turn g s text (r.hold .chars ch) (r.grown .chars ch) false (r.push g s .chars ch) rest
  /-- The character belongs to a text. -/
  | text {r : Run} {taken : List Phrase} {ch : Char} {rest : List Char} (h : Reached g s text r taken (ch :: rest))
      (hin : r.inText = true) :
      Turn g s text (r.past ch) (.single .chars r.cursor ch) true (r.readText g s ch).1 ((r.readText g s ch).2 ++ rest)

/-- Where reading a character changes the tree, it is a turn.  What is no turn reports an unknown character at most. -/
theorem Reached.turn_of_read {taken taken' : List Phrase} {ch : Char} {again : List Char}
    (h : Reached g s text r taken (ch :: rest)) (hread : Reads g s r taken ch r' taken' again) :
    (∃ r₀ p must, Turn g s text r₀ p must r' (again ++ rest) ∧ r₀.tree = r.tree ∧ r₀.active = r.active ∧
        r₀.reports = r.reports) ∨
      r'.tree = r.tree ∧ r'.active = r.active ∧
        (r'.reports = r.reports ∨ g.classes.startingKind ch = none ∧ Text.isBlank ch = false ∧
          r'.reports = ⟨⟨r.cursor, r.cursor.advance ch⟩, String.singleton ch, .unknownCharacter, []⟩ :: r.reports) := by
  have hpush : ∀ {kind : PhraseKind}, r.inText = false → ((r.buffer? = none ∧ g.classes.startingKind ch = some kind) ∨
      ∃ p, r.buffer? = some p ∧ p.kind = kind ∧ g.classes.continues kind ch = true) →
      (∃ r₀ p must, Turn g s text r₀ p must (r.push g s kind ch) rest ∧ r₀.tree = r.tree ∧ r₀.active = r.active ∧
        r₀.reports = r.reports) ∨
        (r.push g s kind ch).tree = r.tree ∧ (r.push g s kind ch).active = r.active ∧
          (r.push g s kind ch).reports = r.reports := by
    intro kind hin hgrows
    by_cases hkind : kind = .chars
    · subst hkind
      exact Or.inl ⟨_, _, _, .push h hin hgrows, rfl, rfl, rfl⟩
    · rw [push_eq_of_ne hkind]
      exact Or.inr ⟨rfl, rfl, rfl⟩
  cases hread with
  | lengthen hin hbuffer hcontinues =>
    exact (hpush hin (Or.inr ⟨_, hbuffer, rfl, hcontinues⟩)).imp_right fun ⟨ht, ha, hr⟩ => ⟨ht, ha, Or.inl hr⟩
  | begin hin hbuffer hstarts =>
    exact (hpush hin (Or.inl ⟨hbuffer, hstarts⟩)).imp_right fun ⟨ht, ha, hr⟩ => ⟨ht, ha, Or.inl hr⟩
  | skip hin hbuffer hstarts =>
    unfold Run.skip
    split
    · exact Or.inr ⟨rfl, rfl, Or.inl rfl⟩
    · next hblank => exact Or.inr ⟨rfl, rfl, Or.inr ⟨hstarts, by simpa using hblank, rfl⟩⟩
  | text hin => exact Or.inl ⟨_, _, _, .text h hin, rfl, rfl, rfl⟩

theorem Reached.buffer_text_ne {taken : List Phrase} (h : Reached g s text r taken rest) :
    ∀ p, r.buffer? = some p → p.text ≠ "" :=
  h.buffer_rule (fun _ => by simp [Phrase.single]) fun _ _ => by simp [Phrase.push]

namespace Turn

variable (h : Turn g s text r p must r' rest)

include h

theorem text_ne : p.text ≠ "" := by
  cases h with
  | flush h hin hbuffer => exact h.buffer_text_ne p hbuffer
  | push => exact grown_text_ne _ _ _
  | text => simp [Phrase.single]

theorem tree_arranged : r.tree.Arranged r.active := by
  cases h with
  | flush h | push h | text h => exact (Passes.reached h).tree_arranged

theorem tree_conforms : r.tree.Conforms g := by
  cases h with
  | flush h | push h | text h => exact (Passes.reached h).tree_conforms.1

/-- The run goes on with the tree in which the phrase was placed; at most a closing phrase is given back. -/
theorem goes_on : r'.active = (r.resolve g s p must).1.active ∧
    (r'.tree = (r.resolve g s p must).1.tree ∨
      ((r.resolve g s p must).1.tree.toReread? (r.resolve g s p must).1.active).isSome = true ∧
        r'.tree = (r.resolve g s p must).1.tree.settle (r.resolve g s p must).1.active) := by
  cases h with
  | flush h hin hbuffer =>
    rw [flush_of_some hbuffer]
    exact ⟨rfl, Or.inl rfl⟩
  | push h =>
    rw [push_chars]
    split <;> exact ⟨rfl, Or.inl rfl⟩
  | @text r taken ch rest h hin =>
    rw [readText, ← takeChar]
    cases hback : (r.takeChar g s ch).tree.toReread? (r.takeChar g s ch).active with
    | none =>
      rw [giveBack_of_none hback]
      exact ⟨rfl, Or.inl rfl⟩
    | some back =>
      rw [giveBack_of_some hback]
      exact ⟨rfl, Or.inr ⟨rfl, rfl⟩⟩

/-- **A phrase changes one instance, and what is left stays as it is.**  Where a phrase is taken, the instance that
takes it, or on whose behalf a global rule does, changes at its end, and new ones hang below it in a line down to the
next active one; all others stay the same.  A phrase that is refused changes nothing.  Giving back a closing phrase
clears a mark of the active instance.  An instance that does not stand around the active one after a phrase is the same,
and does not stand there, for the rest of the run. -/
theorem changes_one {placed : Run} (hplaced : r.resolve g s p must = (placed, taken)) :
    (taken = true → ∃ id n n' depth, r.tree.Absorbs g p r.active id n n' ∧ n' ≠ n ∧
        r.tree.Graft id n n' depth placed.tree placed.active) ∧
      (taken = false → placed.tree = r.tree ∧ placed.active = r.active) ∧
      (r'.active = placed.active ∧ (r'.tree = placed.tree ∨
        (placed.tree.toReread? placed.active).isSome = true ∧ r'.tree = placed.tree.settle placed.active)) ∧
      ∀ id n, placed.tree.node? id = some n → id ∉ placed.tree.chain placed.active →
        ∀ r'', Later g s r' rest r'' → r''.tree.node? id = some n ∧ id ∉ r''.tree.chain r''.active := by
  have harranged := h.tree_arranged
  have hresolves := resolve_resolves g s r p must
  have hplaces := resolve_places g s r p must
  obtain ⟨hactive, htree⟩ := h.goes_on
  rw [hplaced] at hresolves hplaces hactive htree
  refine ⟨?_, ?_, ⟨hactive, htree⟩, ?_⟩
  · rintro rfl
    exact hresolves.absorbs harranged h.tree_conforms h.text_ne
  · intro htaken
    obtain ⟨hsame, hstays, -⟩ := hplaces.refuses htaken
    exact ⟨hsame, hstays⟩
  · intro id n hn hoff r'' hlater
    have hkept : placed.tree.Arranged placed.active := by
      have := resolve_arranged harranged g s p must
      rwa [hplaced] at this
    -- giving back the closing phrase changes only the active instance, and `id` is not that one
    have hdone : placed.Done id n := ⟨hkept, hn, hoff⟩
    have hdone' : r'.Done id n := by
      rcases htree with hsame | ⟨-, hsettled⟩
      · exact hdone.congr hsame hactive
      · exact hdone.settle.congr hsettled hactive
    obtain ⟨-, hnode, hoff'⟩ := hlater.done hdone'
    exact ⟨hnode, hoff'⟩

end Turn

end Run

namespace Listing

/-- The run over the first item and the name of the second one. -/
def named : Run := (Run.readAll (grammar true) {} 2 {} ['a', ' ', '1', ' ', 'b']).get (by decide +kernel)

/-- The name of the second item, which is still being read. -/
def name : Phrase := .single .word (Cursor.start.advanceOver ['a', ' ', '1', ' ']) 'b'

/-- The first item is left with the name of the second one, and stays as it is from then on. -/
theorem frozen_listing : ∃ placed n,
    Run.Turn (grammar true) {} ['a', ' ', '1', ' ', 'b', '<', 'c', '>'] named name true (named.flush (grammar true) {})
        ['<', 'c', '>'] ∧
      named.resolve (grammar true) {} name true = (placed, true) ∧ placed.tree.node? 1 = some n ∧ n.entries.length = 2 ∧
        ∀ r'', Run.Later (grammar true) {} (named.flush (grammar true) {}) ['<', 'c', '>'] r'' →
          r''.tree.node? 1 = some n ∧ 1 ∉ r''.tree.chain r''.active := by
  have hread : Run.readAll (grammar true) {} 2 {} ['a', ' ', '1', ' ', 'b'] = some named := (Option.some_get _).symm
  have hstart : Run.Reached (grammar true) {} ['a', ' ', '1', ' ', 'b', '<', 'c', '>'] {} []
      (['a', ' ', '1', ' ', 'b'] ++ ['<', 'c', '>']) := .start
  obtain ⟨taken, hreached⟩ := hstart.readAll hread
  have hend : ∀ ch ∈ ['<', 'c', '>'].head?, (grammar true).classes.continues name.kind ch = false := by
    intro ch hch
    cases hch
    decide +kernel
  have hturn : Run.Turn (grammar true) {} ['a', ' ', '1', ' ', 'b', '<', 'c', '>'] named name true
      (named.flush (grammar true) {}) ['<', 'c', '>'] :=
    .flush hreached (by decide +kernel) (by decide +kernel) hend
  have htaken : (named.resolve (grammar true) {} name true).2 = true := by decide +kernel
  have hplaced : named.resolve (grammar true) {} name true =
      ((named.resolve (grammar true) {} name true).1, true) := Prod.ext rfl htaken
  have hnode : ((named.resolve (grammar true) {} name true).1.tree.node? 1).map (·.entries.length) = some 2 := by
    decide +kernel
  have hoff : 1 ∉ (named.resolve (grammar true) {} name true).1.tree.chain
      (named.resolve (grammar true) {} name true).1.active := by decide +kernel
  obtain ⟨n, hn, hlength⟩ := Option.map_eq_some_iff.mp hnode
  obtain ⟨-, -, -, hrest⟩ := hturn.changes_one hplaced
  exact ⟨_, n, hturn, hplaced, hn, hlength, hrest 1 n hn hoff⟩

end Listing

end PhraseTree
