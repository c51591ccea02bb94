import PhraseTree.Proofs.Run.Calm

/-!
# Runs that come to their end

A text that is closed may give back what closed it, and this is read again.  In a calm run each stretch that is given
back begins behind the one before, so reading nests at most as deep as the text is long, and the run comes to its end
(`Grammar.read?_isSome`).

Other runs need not.  `Run.advance` reads one character after the other, without the nesting; a step *disturbs* a text
if it gives something back while this text is open and may give something back in turn.  A run comes to its end just if
from some step on nothing is disturbed (`Run.ends_iff`).  There are runs in which two branches hand the same characters
to each other for ever (`Starred.endless`).
-/

namespace PhraseTree

namespace Run

variable {g : Grammar} {s : Settings} {text text₀ chars more rest : List Char} {r r₀ r' : Run}
  {taken taken₀ : List Phrase} {low pos depth depth' n : Nat} {ch : Char}

/-! ### Calm runs -/

/-- **Reading comes to an end in a calm run.**  The depth that is left bounds how far `low` may still move on. -/
theorem readAll_isSome (hcalm : g.Calm s Path.HandsBack text) (hreached : Reached g s text r taken (chars ++ rest))
    (h : Tracks g Path.HandsBack {} text r taken₀ low pos) (hrest : chars ++ rest = text.drop pos)
    (hdepth : text.length - low < depth) :
    ∃ r' taken' taken₀' low' pos', readAll g s depth r chars = some r' ∧ Reached g s text r' taken' rest ∧
      Tracks g Path.HandsBack {} text r' taken₀' low' pos' ∧ rest = text.drop pos' ∧ low ≤ low' := by
  -- the nesting is bounded by the outer induction, the characters of one level are counted by the inner one
  induction depth generalizing r taken taken₀ chars rest low pos with
  | zero => omega
  | succ depth ih =>
    induction chars generalizing r taken taken₀ low pos with
    | nil => exact ⟨r, taken, taken₀, low, pos, rfl, hreached, h, hrest, le_rfl⟩
    | cons ch chars ihchars =>
      obtain ⟨taken₁, hreached₁⟩ := hreached.step
      obtain ⟨taken₁', low₁, pos₁, h₁, hrest₁, hle₁, hlt₁⟩ :=
        h.step hreached hrest (fun _ hpath => hpath) (hreached.step_calm hcalm)
      obtain ⟨r₂, taken₂, taken₂', low₂, pos₂, hread₂, hreached₂, h₂, hrest₂, hle₂⟩ :
          ∃ r₂ taken₂ taken₂' low₂ pos₂, readAll g s depth (r.step g s ch).1 (r.step g s ch).2 = some r₂ ∧
            Reached g s text r₂ taken₂ (chars ++ rest) ∧ Tracks g Path.HandsBack {} text r₂ taken₂' low₂ pos₂ ∧
            chars ++ rest = text.drop pos₂ ∧ low₁ ≤ low₂ := by
        by_cases hagain : (r.step g s ch).2 = []
        · rw [hagain] at hreached₁ hrest₁ ⊢
          exact ⟨_, taken₁, taken₁', low₁, pos₁, rfl, hreached₁, h₁, hrest₁, le_rfl⟩
        · have hlow := (hlt₁ hagain).1
          have hpos := h₁.low_le.trans h₁.pos_le
          exact ih hreached₁ h₁ hrest₁ (by omega)
      obtain ⟨r', taken', taken₀', low', pos', hread', hreached', h', hrest', hle'⟩ :=
        ihchars hreached₂ h₂ hrest₂ (by omega)
      refine ⟨r', taken', taken₀', low', pos', ?_, hreached', h', hrest', by omega⟩
      rw [readAll_cons, readChar_succ, hread₂, Option.bind_some]
      exact hread'

end Run

/-- **Calm runs come to their end.**  As many levels as the text has characters, and one more, are enough. -/
theorem Grammar.read?_isSome {g : Grammar} {s : Settings} {text : List Char}
    (hcalm : g.Calm s Path.HandsBack text) : (g.read? s text).isSome = true := by
  have hstart : Run.Reached g s text {} [] (text ++ []) := by rw [List.append_nil]; exact .start
  obtain ⟨r, -, -, -, -, hr, -⟩ := Run.readAll_isSome hcalm hstart Run.tracks_start (by simp)
    (show text.length - 0 < Grammar.allowance text.length by unfold Grammar.allowance; omega)
  rw [read?, Option.isSome_map, hr, Option.isSome_some]

/-! ### One character after the other -/

namespace Run

variable {g : Grammar} {s : Settings} {text text₀ chars more rest : List Char} {r r₀ r' : Run}
  {taken taken₀ : List Phrase} {low pos depth depth' n m : Nat} {ch : Char}

/-- The run after one more character, and what is left then. -/
def advance (g : Grammar) (s : Settings) : Run × List Char → Run × List Char
  | (r, []) => (r, [])
  | (r, ch :: rest) => ((r.step g s ch).1, (r.step g s ch).2 ++ rest)

/-- The run after `n` characters, those read again included, and what is left then. -/
def after (g : Grammar) (s : Settings) (text : List Char) (n : Nat) : Run × List Char := (advance g s)^[n] ({}, text)

/-- **The next step disturbs a text**: it gives something back while this text is open and may give something back. -/
def Disturbs (g : Grammar) (s : Settings) : Run × List Char → Prop
  | (_, []) => False
  | (r, ch :: _) =>
    (r.step g s ch).2 ≠ [] ∧ ∃ part c, (r.step g s ch).1.tree.Has g Path.HandsBack part c ∧ c.inText = true

theorem after_succ (g : Grammar) (s : Settings) (text : List Char) (n : Nat) :
    after g s text (n + 1) = advance g s (after g s text n) := Function.iterate_succ_apply' _ _ _

theorem iterate_advance_nil (g : Grammar) (s : Settings) (r : Run) (n : Nat) : (advance g s)^[n] (r, []) = (r, []) :=
  Function.iterate_fixed rfl n

theorem reached_after (g : Grammar) (s : Settings) (text : List Char) (n : Nat) :
    ∃ taken, Reached g s text (after g s text n).1 taken (after g s text n).2 := by
  induction n with
  | zero => exact ⟨[], .start⟩
  | succ n ih =>
    obtain ⟨taken, h⟩ := ih
    rw [after_succ]
    rcases hafter : after g s text n with ⟨r, _ | ⟨ch, rest⟩⟩
    · rw [hafter] at h
      exact ⟨taken, h⟩
    · rw [hafter] at h
      exact h.step

/-! ### Reading with and without nesting -/

theorem after_of_readAll (h : readAll g s depth {} text = some r) : ∃ n, after g s text n = (r, []) := by
  refine readAll_rule (P := fun r rest => ∃ n, after g s text n = (r, rest)) ?_ ⟨0, by simp [after]⟩ h
  rintro r ch rest ⟨n, hn⟩
  exact ⟨n + 1, by rw [after_succ, hn]; rfl⟩

/-- What is read one character after the other is read with nesting: first `chars`, then what follows them. -/
theorem readAll_of_iterate (h : (advance g s)^[n] (r, chars ++ more) = (r', [])) :
    ∃ depth r₁ m, readAll g s depth r chars = some r₁ ∧ m ≤ n ∧ (advance g s)^[m] (r₁, more) = (r', []) := by
  induction n using Nat.strongRecOn generalizing r chars more with
  | ind n ih =>
    cases chars with
    | nil => exact ⟨0, r, n, rfl, le_rfl, h⟩
    | cons ch chars =>
      cases n with
      | zero => cases h
      | succ n =>
        rw [Function.iterate_succ_apply] at h
        simp only [advance, List.cons_append] at h
        obtain ⟨depth₁, r₁, m₁, hread₁, hm₁, h₁⟩ := ih n (by omega) h
        obtain ⟨depth₂, r₂, m₂, hread₂, hm₂, h₂⟩ := ih m₁ (by omega) h₁
        refine ⟨max depth₁ depth₂ + 1, r₂, m₂, ?_, by omega, h₂⟩
        rw [readAll_cons, readChar_succ, readAll_mono hread₁ (le_max_left _ _), Option.bind_some]
        exact readAll_mono hread₂ (by omega)

/-! ### Undisturbed runs -/

/-- A run in its place comes to its end if no step disturbs a text.  `bound` bounds how far `low` may still move on. -/
theorem Tracks.comes_to_end {bound : Nat} (h : Tracks g Path.HandsBack r₀ text r taken low pos)
    (hreached : Reached g s text₀ r taken₀ rest) (hrest : rest = text.drop pos) (hbound : text.length - low ≤ bound)
    (hcalm : ∀ n, ¬ Disturbs g s ((advance g s)^[n] (r, rest))) : ∃ n, ((advance g s)^[n] (r, rest)).2 = [] := by
  induction bound generalizing r taken taken₀ rest low pos with
  | zero =>
    have hlow := h.low_le
    exact ⟨0, by rw [hrest]; exact List.drop_eq_nil_of_le (by omega)⟩
  | succ bound ih =>
    induction rest generalizing r taken taken₀ low pos with
    | nil => exact ⟨0, rfl⟩
    | cons ch rest ihrest =>
      have hclosed : (r.step g s ch).2 ≠ [] →
          ∀ part c, (r.step g s ch).1.tree.Has g Path.HandsBack part c → c.inText = false := by
        intro hagain part c hc
        by_contra hin
        exact hcalm 0 ⟨hagain, part, c, hc, by simpa using hin⟩
      obtain ⟨taken₁, hreached₁⟩ := hreached.step
      obtain ⟨taken', low', pos', h', hrest', hle, hlt⟩ := h.step hreached hrest (fun _ hpath => hpath) hclosed
      have hcalm' : ∀ n, ¬ Disturbs g s ((advance g s)^[n] (advance g s (r, ch :: rest))) := fun n => hcalm (n + 1)
      have hend : ∃ n, ((advance g s)^[n] (advance g s (r, ch :: rest))).2 = [] := by
        by_cases hagain : (r.step g s ch).2 = []
        · simp only [advance, hagain, List.nil_append] at hcalm' hreached₁ hrest' ⊢
          exact ihrest h' hreached₁ hrest' (by omega) hcalm'
        · have hlow := (hlt hagain).1
          exact ih h' hreached₁ hrest' (by omega) hcalm'
      obtain ⟨n, hn⟩ := hend
      exact ⟨n + 1, hn⟩

theorem Reached.buffer_of_again (h : Reached g s text r taken (ch :: rest)) (hagain : (r.step g s ch).2 ≠ []) :
    (r.step g s ch).1.buffer? = none := by
  have htext : ∀ {r₁ : Run} {taken₁ r₂ taken₂ again}, (r₁.inText = true → r₁.buffer? = none) →
      Reads g s r₁ taken₁ ch r₂ taken₂ again → again ≠ [] → r₂.buffer? = none := by
    intro r₁ taken₁ r₂ taken₂ again hidle hread hagain
    cases hread with
    | lengthen | begin | skip => exact absurd rfl hagain
    | text hin =>
      rw [readText, giveBack_buffer, takeChar_buffer]
      exact hidle hin
  rcases step_reads g s r taken ch with ⟨taken', hread⟩ | ⟨p, taken', hin, hbuffer, hc, hread⟩
  · exact htext h.buffer_of_inText hread hagain
  · exact htext (fun _ => buffer_flush) hread hagain

theorem iterate_of_no_again (r : Run) (rest : List Char) (h : ∀ n r' ch more,
    (advance g s)^[n] (r, rest) = (r', ch :: more) → (r'.step g s ch).2 = []) :
    ∃ n, ((advance g s)^[n] (r, rest)).2 = [] := by
  induction rest generalizing r with
  | nil => exact ⟨0, rfl⟩
  | cons ch rest ih =>
    have hstep : advance g s (r, ch :: rest) = ((r.step g s ch).1, rest) := by
      rw [advance, h 0 r ch rest rfl, List.nil_append]
    obtain ⟨n, hn⟩ := ih (r.step g s ch).1 fun n r' ch' more hn =>
      h (n + 1) r' ch' more (by rw [Function.iterate_succ_apply, hstep]; exact hn)
    exact ⟨n + 1, by rw [Function.iterate_succ_apply, hstep]; exact hn⟩

theorem ends_iff (g : Grammar) (s : Settings) (text : List Char) :
    (∃ depth, (readAll g s depth {} text).isSome = true) ↔ ∃ N, ∀ n, N ≤ n → ¬ Disturbs g s (after g s text n) := by
  have hadd : ∀ k n, after g s text (n + k) = (advance g s)^[n] (after g s text k) := fun k n =>
    Function.iterate_add_apply _ _ _ _
  constructor
  · rintro ⟨depth, hdepth⟩
    obtain ⟨r, hr⟩ := Option.isSome_iff_exists.mp hdepth
    obtain ⟨N, hN⟩ := after_of_readAll hr
    refine ⟨N, fun n hn => ?_⟩
    obtain ⟨k, rfl⟩ := Nat.exists_eq_add_of_le' hn
    rw [hadd, hN, iterate_advance_nil]
    exact id
  · rintro ⟨N, hN⟩
    suffices hend : ∃ n, (after g s text n).2 = [] by
      obtain ⟨n, hn⟩ := hend
      have hiterate : (advance g s)^[n] ({}, text ++ []) = ((after g s text n).1, []) := by
        rw [List.append_nil]
        exact Prod.ext rfl hn
      obtain ⟨depth, r, -, hread, -⟩ := readAll_of_iterate hiterate
      exact ⟨depth, by rw [hread, Option.isSome_some]⟩
    by_cases hagain : ∃ n r ch rest, N ≤ n ∧ after g s text n = (r, ch :: rest) ∧ (r.step g s ch).2 ≠ []
    · -- when something is given back, no text is open, so the run begins anew with what is left
      obtain ⟨n, r, ch, rest, hle, hafter, hagain⟩ := hagain
      obtain ⟨taken, hreached⟩ := reached_after g s text n
      rw [hafter] at hreached
      have hclosed : ∀ part c, (r.step g s ch).1.tree.Has g Path.HandsBack part c → c.inText = false := by
        intro part c hc
        by_contra hin
        have hquiet := hN n hle
        rw [hafter] at hquiet
        exact hquiet ⟨hagain, part, c, hc, by simpa using hin⟩
      have hnext : after g s text (n + 1) = ((r.step g s ch).1, (r.step g s ch).2 ++ rest) := by
        rw [after_succ, hafter]
        rfl
      obtain ⟨taken', hreached'⟩ := hreached.step
      obtain ⟨hconforms, hopen⟩ := (Passes.reached hreached').tree_conforms
      have htracks : Tracks g Path.HandsBack (r.step g s ch).1 ((r.step g s ch).2 ++ rest) (r.step g s ch).1 [] 0 0 :=
        .start hconforms hopen hclosed (hreached.buffer_of_again hagain)
      obtain ⟨m, hm⟩ := htracks.comes_to_end hreached' rfl le_rfl fun k => by
        rw [← hnext, ← hadd]
        exact hN _ (by omega)
      exact ⟨m + (n + 1), by rw [hadd, hnext]; exact hm⟩
    · obtain ⟨m, hm⟩ := iterate_of_no_again (after g s text N).1 (after g s text N).2 fun n r' ch more hn => by
        by_contra hne
        exact hagain ⟨n + N, r', ch, more, by omega, by rw [hadd]; exact hn, hne⟩
      exact ⟨m + N, by rw [hadd]; exact hm⟩

end Run

/-- **Which runs come to their end.**  Just those in which from some step on no text is disturbed; among them all runs
of a grammar in which no part has two paths that give something back. -/
theorem Grammar.termination (g : Grammar) (s : Settings) (text : List Char) :
    ((∃ depth, (Run.readAll g s depth {} text).isSome = true) ↔
        ∃ N, ∀ n, N ≤ n → ¬ Run.Disturbs g s (Run.after g s text n)) ∧
      (g.Apart Path.HandsBack → (g.read? s text).isSome = true) :=
  ⟨Run.ends_iff g s text, fun hapart => read?_isSome (hapart.calm s text)⟩

/-! ### A run that does not come to its end -/

namespace Run

variable {g : Grammar} {s : Settings} {r : Run} {p : Phrase} {n : Node}

theorem resolve_of_own {change : Change} (hn : r.tree.node? r.active = some n)
    (hown : (n.offer g p).found? = some change) (must : Bool) :
    (r.resolve g s p must).2 = true ∧ (r.resolve g s p must).1.tree = (r.tree.apply r.active change).1 ∧
      (r.resolve g s p must).1.active = (r.tree.apply r.active change).2 := by
  have hoffer : (r.tree.offer g p r.active).found? = some change := by rw [Tree.offer, hn, hown]
  simp only [resolve, hoffer]
  exact ⟨trivial, rfl, rfl⟩

theorem resolve_of_global {rule : RuleId} {growth : Growth} (hn : r.tree.node? r.active = some n)
    (hown : (n.offer g p).found? = none) (hglobal : (Tree.offerGlobal g p).found? = some (rule, growth))
    (must : Bool) :
    (r.resolve g s p must).2 = true ∧
      (r.resolve g s p must).1.tree = (r.tree.adopt g r.active rule growth).1 ∧
      (r.resolve g s p must).1.active = (r.tree.adopt g r.active rule growth).2 := by
  have hoffer : (r.tree.offer g p r.active).found? = none := by rw [Tree.offer, hn, hown]
  simp only [resolve, hoffer, hglobal]
  exact ⟨trivial, rfl, rfl⟩

end Run

namespace Starred

/-- A span begins with a star and ends before the next one. -/
def short : TextPart := { key := "short", opening? := some "*", closing := "*", handsBack := true }

/-- A span begins with a star and ends before the next two. -/
def long : TextPart := { key := "long", opening? := some "*", closing := "**", handsBack := true }

/-- Words, with spans anywhere between them that end in either way. -/
def rules : List (Rule RuleId) := [⟨topLevelName, [.simple (.identifier "word")]⟩,
  ⟨"Span", [.alternatives ⟨[[.text short], [.text long]], false⟩]⟩]

theorem sound_rules : Sound rules { key := "global", candidates := [1], optional := true } {} := by
  constructor <;> decide +kernel

def grammar : Grammar := ⟨rules, _, _, sound_rules⟩

/-- The two ways to end a span. -/
def ends : Alternatives := ⟨[[.text short], [.text long]], false⟩

/-- A span of which `branches` are left. -/
def span (parent? : Option NodeId) (globals : List Child) (branches : List Branch) (satisfied : Bool) : Node :=
  ⟨1, parent?, [.fork ⟨0, branches, satisfied⟩], globals⟩

/-- A branch along path `i` that is open and holds `value`. -/
def opened (i : Nat) (value : String) (s : Span) : Branch := ⟨i, [⟨0, [value], s, false, true, 1, none⟩]⟩

/-- A branch along path `i` that is closed. -/
def closed (i : Nat) (s : Span) : Branch := ⟨i, [⟨0, ["*"], s, true, false, 1, none⟩]⟩

/-- A span that a star begins at `c`. -/
def begun (c : Cursor) : Growth :=
  .fork ⟨0, [opened 0 "*" ⟨c, c.advance '*'⟩, opened 1 "*" ⟨c, c.advance '*'⟩], true⟩

/-- **Going round.**  With two stars left a span begins, be it the first one or not; the second star closes the short
branch, which gives it back; then the same star closes the long branch, which gives back both. -/
inductive Circles : Run → List Char → Prop
  | start {r : Run} (hbuffer : r.buffer? = none)
      (hn : r.tree.node? r.active = some (.fresh Grammar.topLevel none)) : Circles r ['*', '*']
  | both {r : Run} {parent? : Option NodeId} {globals : List Child} {a b : Span} {satisfied : Bool}
      (hbuffer : r.buffer? = none)
      (hn : r.tree.node? r.active = some (span parent? globals [opened 0 "*" a, opened 1 "*" b] satisfied)) :
      Circles r ['*']
  | long {r : Run} {parent? : Option NodeId} {globals : List Child} {a b : Span} {satisfied : Bool}
      (hbuffer : r.buffer? = none)
      (hn : r.tree.node? r.active = some (span parent? globals [closed 0 a, opened 1 "**" b] satisfied)) :
      Circles r ['*']
  | neither {r : Run} {parent? : Option NodeId} {globals : List Child} {b : Span} (hbuffer : r.buffer? = none)
      (hn : r.tree.node? r.active = some (span parent? globals [closed 1 b] true)) : Circles r ['*', '*']

variable {s : Settings} {r : Run} {n : Node} {ch : Char} {rest : List Char}

theorem circles_of_refused (hbuffer : r.buffer? = none) (hn : r.tree.node? r.active = some n) (hin : n.inText = false)
    (hrefused : ∀ c, (n.offer grammar (.single .chars c '*')).found? = none) :
    (r.step grammar s '*').2 = [] ∧ Circles (r.step grammar s '*').1 ['*'] := by
  have hstep : r.step grammar s '*' = (r.push grammar s .chars '*', []) := by
    have hrin : r.inText = false := by simp [Run.inText, Tree.inText, hn, hin]
    have hkind : grammar.classes.startingKind '*' = some .chars := by decide +kernel
    simp [Run.step, hrin, hbuffer, Run.openWith, hkind]
  have hglobal : ∀ c, (Tree.offerGlobal grammar (.single .chars c '*')).found? = some (1, begun c) := by
    intro c
    cbv
  have hgrown : r.grown .chars '*' = .single .chars r.cursor '*' := by simp [Run.grown, hbuffer]
  obtain ⟨htook, htree, hactive⟩ := Run.resolve_of_global (r := r.hold .chars '*') (s := s) hn
    (hrefused r.cursor) (hglobal r.cursor) false
  have hnode : ((r.hold .chars '*').tree.adopt grammar (r.hold .chars '*').active 1 (begun r.cursor)).1.node?
      ((r.hold .chars '*').tree.adopt grammar (r.hold .chars '*').active 1 (begun r.cursor)).2 =
      some (span (some r.active) [] [opened 0 "*" ⟨r.cursor, r.cursor.advance '*'⟩,
        opened 1 "*" ⟨r.cursor, r.cursor.advance '*'⟩] true) :=
    Tree.node?_extend_add _ _ 0 _ _
  rw [hstep, Run.push_chars, hgrown, if_pos htook]
  refine ⟨rfl, .both rfl (Eq.trans ?_ hnode)⟩
  dsimp only
  rw [htree, hactive]

/-- A star that closes a text is taken away again with all of the closing phrase, here down to the star that opened it. -/
theorem resume?_closed {t : TextPart} {value : String} (c : Cursor) (a : Span)
    (hcloses : t.closes 1 (value ++ "*") = true) (hback : t.handsBack = true) (hkeep : t.keep (value ++ "*") = ['*']) :
    t.resume? (.single .chars c '*') ⟨0, [value], a, false, true, 1, none⟩ =
      some ⟨0, ["*"], ⟨a.start, a.start.advance '*'⟩, true, false, 1, some t.closing⟩ := by
  have hvalue : (⟨0, [value], a, false, true, 1, none⟩ : Capture).value ++ (Phrase.single .chars c '*').text =
      value ++ "*" := rfl
  rw [TextPart.resume?, if_pos rfl]
  dsimp only
  rw [hvalue, if_pos hcloses, if_pos hback, hkeep]
  rfl

theorem resume?_opened {t : TextPart} {value : String} (c : Cursor) (a : Span)
    (hopen : ¬ t.closes 1 (value ++ "*") = true) :
    t.resume? (.single .chars c '*') ⟨0, [value], a, false, true, 1, none⟩ =
      some ⟨0, [value ++ "*"], ⟨a.start, c.advance '*'⟩, false, true, 1, none⟩ := by
  rw [TextPart.resume?, if_pos rfl]
  exact if_neg hopen

theorem take?_opened {i : Nat} {t : TextPart} {p : Phrase} {value : String} {a : Span} {x : Capture}
    (hpath : ends.paths[i]? = some [.text t]) (h : t.resume? p ⟨0, [value], a, false, true, 1, none⟩ = some x)
    (hx : x.part = 0) : (opened i value a).take? ends.paths p = some ⟨i, [x]⟩ := by
  have htake : Path.take? [.text t] p (opened i value a).last? = some x := by
    simp [Path.take?, opened, Branch.last?, SimplePart.resume?, h]
  have hrecord : Branch.record (opened i value a).captures x = [x] := if_pos hx.symm
  have hthere : ends.paths[(opened i value a).path]? = some [.text t] := hpath
  simp only [Branch.take?, hthere, htake, Option.map_some, hrecord]
  rfl

/-- The second star closes the short branch, and goes into the long one. -/
theorem resume?_both (c : Cursor) (a b : Span) (satisfied : Bool) :
    ends.resume? 0 (.single .chars c '*') ⟨0, [opened 0 "*" a, opened 1 "*" b], satisfied⟩ =
      some ⟨0, [⟨0, [⟨0, ["*"], ⟨a.start, a.start.advance '*'⟩, true, false, 1, some "*"⟩]⟩,
        opened 1 "**" ⟨b.start, c.advance '*'⟩], true⟩ := by
  have hshort : (opened 0 "*" a).take? ends.paths (.single .chars c '*') =
      some ⟨0, [⟨0, ["*"], ⟨a.start, a.start.advance '*'⟩, true, false, 1, some "*"⟩]⟩ :=
    take?_opened rfl (resume?_closed c a (by decide +kernel) rfl (by decide)) rfl
  have hlong : (opened 1 "*" b).take? ends.paths (.single .chars c '*') =
      some (opened 1 "**" ⟨b.start, c.advance '*'⟩) :=
    take?_opened rfl (resume?_opened c b (by decide +kernel)) rfl
  simp only [Alternatives.resume?, List.filterMap_cons, hshort, hlong]
  rfl

/-- Read again, it closes the long branch; the short one takes no more. -/
theorem resume?_long (c : Cursor) (a b : Span) (satisfied : Bool) :
    ends.resume? 0 (.single .chars c '*') ⟨0, [closed 0 a, opened 1 "**" b], satisfied⟩ =
      some ⟨0, [⟨1, [⟨0, ["*"], ⟨b.start, b.start.advance '*'⟩, true, false, 1, some "**"⟩]⟩], true⟩ := by
  have hshort : (closed 0 a).take? ends.paths (.single .chars c '*') = none := rfl
  have hlong : (opened 1 "**" b).take? ends.paths (.single .chars c '*') =
      some ⟨1, [⟨0, ["*"], ⟨b.start, b.start.advance '*'⟩, true, false, 1, some "**"⟩]⟩ :=
    take?_opened rfl (resume?_closed c b (by decide +kernel) rfl (by decide)) rfl
  simp only [Alternatives.resume?, List.filterMap_cons, hshort, hlong]
  rfl

theorem offer_of_resume? {c : Cursor} {parent? : Option NodeId} {globals : List Child} {branches : List Branch}
    {satisfied : Bool} {f : Fork}
    (h : ends.resume? 0 (.single .chars c '*') ⟨0, branches, satisfied⟩ = some f) :
    ((span parent? globals branches satisfied).offer grammar (.single .chars c '*')).found? =
      some (.replace (.fork f)) := by
  show ((Search.ofOption ((ends.resume? 0 (.single .chars c '*') ⟨0, branches, satisfied⟩).map
    fun f => Change.replace (.fork f))) <|> _).found? = _
  rw [h]
  rfl

/-- A star that closes a branch is given back as far as the branch says. -/
theorem step_of_replaced {f f' : Fork} {parent? : Option NodeId} {globals : List Child} {phrase : String}
    {start : Cursor} (hbuffer : r.buffer? = none)
    (hn : r.tree.node? r.active = some ⟨1, parent?, [.fork f], globals⟩) (hin : f.inText = true)
    (hown : ((⟨1, parent?, [.fork f], globals⟩ : Node).offer grammar (.single .chars r.cursor '*')).found? =
      some (.replace (.fork f'))) (hback : f'.toReread? = some (phrase, start)) :
    (r.step grammar s '*').2 = phrase.toList ∧ (r.step grammar s '*').1.buffer? = none ∧
      (r.step grammar s '*').1.tree.node? (r.step grammar s '*').1.active =
        some ⟨1, parent?, [.fork f'.settled], globals⟩ := by
  have hstep : r.step grammar s '*' = r.readText grammar s '*' := by
    have hrin : r.inText = true := by simp [Run.inText, Tree.inText, hn, Node.inText, Node.last?, Entry.inText, hin]
    simp [Run.step, hrin]
  obtain ⟨-, htree, hactive⟩ := Run.resolve_of_own (r := r.past '*') (s := s) hn hown true
  have hnode : (r.takeChar grammar s '*').tree.node? (r.takeChar grammar s '*').active =
      some ⟨1, parent?, [.fork f'], globals⟩ := by
    rw [Run.takeChar, htree, hactive]
    show (⟨r.tree.nodes.modify r.active _⟩ : Tree).node? r.active = _
    rw [Tree.node?_modify, if_pos rfl, hn]
    rfl
  have hreread : (r.takeChar grammar s '*').tree.toReread? (r.takeChar grammar s '*').active = some (phrase, start) := by
    rw [Tree.toReread?, hnode]
    exact hback
  rw [hstep, Run.readText, Run.giveBack, hreread]
  refine ⟨rfl, ?_, ?_⟩
  · exact (Run.resolve_places grammar s _ _ true).buffer.trans hbuffer
  · dsimp only
    rw [Tree.settle, Tree.node?_modify, if_pos rfl, hnode]
    rfl

/-- **Every step goes round.** -/
theorem Circles.step (h : Circles r (ch :: rest)) :
    Circles (r.step grammar s ch).1 ((r.step grammar s ch).2 ++ rest) := by
  cases h with
  | start hbuffer hn =>
    obtain ⟨hnone, hcircles⟩ := circles_of_refused (s := s) hbuffer hn rfl fun c => by cbv
    rw [hnone]
    exact hcircles
  | neither hbuffer hn =>
    obtain ⟨hnone, hcircles⟩ := circles_of_refused (s := s) hbuffer hn rfl fun c => by cbv
    rw [hnone]
    exact hcircles
  | @both parent? globals a b satisfied hbuffer hn =>
    obtain ⟨hagain, hidle, hnode⟩ := step_of_replaced (s := s) hbuffer hn rfl (offer_of_resume? (resume?_both _ _ _ _)) rfl
    rw [hagain]
    exact .long hidle hnode
  | @long parent? globals a b satisfied hbuffer hn =>
    obtain ⟨hagain, hidle, hnode⟩ := step_of_replaced (s := s) hbuffer hn rfl (offer_of_resume? (resume?_long _ _ _ _)) rfl
    rw [hagain]
    exact .neither hidle hnode

/-- **Two stars are read for ever.** -/
theorem endless :
    grammar.read? {} ['*', '*'] = none ∧
      ¬ ∃ depth, (Run.readAll grammar {} depth {} ['*', '*']).isSome = true := by
  have hnone : ∀ depth, Run.readAll grammar {} depth {} ['*', '*'] = none := by
    intro depth
    cases hread : Run.readAll grammar {} depth {} ['*', '*'] with
    | none => rfl
    | some r => cases Run.readAll_rule (P := Circles) Circles.step (.start rfl rfl) hread
  refine ⟨?_, fun ⟨depth, h⟩ => ?_⟩
  · rw [Grammar.read?, hnone, Option.map_none]
  · rw [hnone] at h
    cases h

end Starred

end PhraseTree
