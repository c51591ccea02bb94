import PhraseTree.Proofs.Run.Arrangement
import PhraseTree.Proofs.Text.Lexer
import PhraseTree.Proofs.Tree.Comments

/-!
# Runs with comments

What can be seen of a run when comments are left out is the pruned tree and the seat of the active instance there.

* `Run.note? r` — what the comment that is being read has taken, if one is being read;
* `Run.Aside r r'` — between `r` and `r'` nothing happened but in comments;
* `Run.resolve_note`, `Run.resolve_start`: a phrase in a comment, and the one that opens a comment, are placed aside;
* `Run.resolve_outside`: any other phrase is placed as the instances around the seat answer it in the pruned tree;
* `Run.readAll_comment`: **a comment is read aside**, from its first character to its last.
-/

namespace PhraseTree

namespace Run

variable {g : Grammar} {s : Settings} {rule : RuleId} {x : TextPart} {start v : String} {r r' r'' : Run} {p : Phrase}
  {must : Bool} {ch : Char} {text rest : List Char} {taken : List Phrase}

/-- The seat of the active instance, as numbered in the pruned tree. -/
def seat (r : Run) : NodeId := r.tree.rank (r.tree.seat r.active)

/-- What the comment that is being read has taken. -/
def note? (r : Run) : Option String := r.tree.note? r.active

/-- **Nothing happened but in comments.** -/
structure Aside (r r' : Run) : Prop where
  pruned : r'.tree.pruned = r.tree.pruned
  seat : r'.seat = r.seat
  reports : r'.reports = r.reports

theorem Aside.trans (h : Aside r r') (h' : Aside r' r'') : Aside r r'' :=
  ⟨h'.pruned.trans h.pruned, h'.seat.trans h.seat, h'.reports.trans h.reports⟩

theorem Passes.tree_commented (h : Passes g s text r) (hg : g.Comments rule x start)
    (hbelow : rule ≠ Grammar.topLevel) : r.tree.Commented g rule r.active :=
  h.tree_rule (P := fun t active => t.Commented g rule active) (.root hbelow) (fun hc ht => hc.takes hg ht)
    fun hc => hc.settle

/-! ### Placing a phrase -/

/-- How the instances around the seat answer a phrase in the pruned tree. -/
def answers (g : Grammar) (p : Phrase) (r : Run) : Climb :=
  r.tree.pruned.offerInOrder g p (r.tree.pruned.chain r.seat)

/-- **Where no global rule takes the phrase**, the active instance and those around it answer in order. -/
theorem resolve_chain (g : Grammar) (s : Settings) (r : Run) (p : Phrase) (must : Bool)
    (hglobal : (r.tree.offer g p r.active).found? = none → (Tree.offerGlobal g p).found? = none) :
    (r.resolve g s p must).2 = (r.tree.offerInOrder g p (r.tree.chain r.active)).taken?.isSome ∧
      (∀ id c, (r.tree.offerInOrder g p (r.tree.chain r.active)).taken? = some (id, c) →
        (r.resolve g s p must).1.tree = (r.tree.apply id c).1 ∧
          (r.resolve g s p must).1.active = (r.tree.apply id c).2) ∧
      ∃ (r' : Run) (l : Leaving), r'.reports = r.reports ∧
        l.unfinished? = ((r.tree.offerInOrder g p (r.tree.chain r.active)).refused.find? (r.tree.needsMore g)).map
          (r.tree.place g) ∧
        (r.resolve g s p must).1.reports =
          (reportLeaving g s r' p must (r.tree.offerInOrder g p (r.tree.chain r.active)).taken?.isSome l).reports := by
  have hresolves := resolve_resolves g s r p must
  generalize (r.resolve g s p must).1 = r', (r.resolve g s p must).2 = taken at hresolves ⊢
  have hrefused : (r.tree.offer g p r.active).found? = none →
      (r.tree.offerInOrder g p (r.tree.chain r.active)).taken? = (r.tree.climb g p r.active).taken? ∧
        (r.tree.offerInOrder g p (r.tree.chain r.active)).refused =
          r.active :: (r.tree.climb g p r.active).refused := by
    intro hown
    rw [Tree.climb_eq, Tree.chain, Tree.offerInOrder]
    simp only [hown, and_self]
  cases hresolves with
  | @own change counters hown =>
    obtain ⟨htaken, hnone⟩ : (r.tree.offerInOrder g p (r.tree.chain r.active)).taken? = some (r.active, change) ∧
        (r.tree.offerInOrder g p (r.tree.chain r.active)).refused = [] := by
      rw [Tree.chain, Tree.offerInOrder]
      simp only [hown, and_self]
    rw [htaken, hnone]
    refine ⟨rfl, ?_, r, ⟨r.tree.place g r.active, none, []⟩, rfl, rfl, ?_⟩
    · rintro id c ⟨⟩
      exact ⟨rfl, rfl⟩
    · simp [reportLeaving]
  | global hown hfound =>
    rw [hglobal hown] at hfound
    cases hfound
  | @ancestor id change counters hown hnone htaken =>
    obtain ⟨htaken', hrefused'⟩ := hrefused hown
    rw [htaken', hrefused', htaken]
    refine ⟨rfl, ?_,
      { r with tree := (r.tree.apply id change).1, active := (r.tree.apply id change).2, counters },
      r.tree.leaving g r.active (r.tree.climb g p r.active), rfl, rfl, rfl⟩
    rintro id' c ⟨⟩
    obtain ⟨new, reported, heq, -, -⟩ := reportLeaving_eq (g := g) (s := s) (p := p)
      (r.tree.leaving g r.active (r.tree.climb g p r.active))
    rw [heq]
    exact ⟨rfl, rfl⟩
  | @refused counters hown hnone htaken =>
    obtain ⟨htaken', hrefused'⟩ := hrefused hown
    rw [htaken', hrefused', htaken]
    refine ⟨rfl, ?_, { r with counters }, r.tree.leaving g r.active (r.tree.climb g p r.active), rfl, rfl, rfl⟩
    rintro id c ⟨⟩

theorem stands_of_inText (hnote : r.note? = none) (hin : r.inText = true) : r.tree.stands r.active = true := by
  have hopen : (!r.tree.stands r.active && r.tree.inText r.active) = false := by
    rw [← Tree.note?_isSome]
    exact Option.isSome_eq_false_iff.mpr (Option.isNone_iff_eq_none.mpr hnote)
  rw [show r.tree.inText r.active = true from hin] at hopen
  simpa using hopen

section Placing

variable (hg : g.Comments rule x start) (hc : r.tree.Commented g rule r.active)

include hc

theorem inText_eq : r.inText = (r.tree.pruned.inText r.seat || r.note?.isSome) := hc.inText_eq

include hg

theorem resolve_note (s : Settings) (p : Phrase) (must : Bool) (hnote : r.note? = some v) :
    (r.resolve g s p must).2 = true ∧ Aside r (r.resolve g s p must).1 ∧
      (r.resolve g s p must).1.note? =
        (if x.closes start.toList.length (v ++ p.text) then none else some (v ++ p.text)) ∧
      (r.resolve g s p must).1.tree.toReread? (r.resolve g s p must).1.active = none := by
  obtain ⟨e, hown, hpruned, hseat, hafter, hback⟩ := hc.apply_note hg hnote p
  have hresolves := resolve_resolves g s r p must
  generalize (r.resolve g s p must).1 = r', (r.resolve g s p must).2 = taken at hresolves ⊢
  cases hresolves with
  | global hnone => rw [hown] at hnone; cases hnone
  | ancestor hnone => rw [hown] at hnone; cases hnone
  | refused hnone => rw [hown] at hnone; cases hnone
  | own hown' =>
    cases hown.symm.trans hown'
    exact ⟨rfl, ⟨hpruned, hseat, rfl⟩, hafter, hback⟩

theorem resolve_start (s : Settings) (must : Bool) (hin : r.inText = false) (hkind : p.kind = .chars)
    (htext : p.text = start) : (r.resolve g s p must).2 = true ∧ Aside r (r.resolve g s p must).1 ∧
      (r.resolve g s p must).1.note? = some start := by
  have hhead : Heads p.text start := by
    rw [htext]
    exact ⟨hg.start_ne, List.prefix_rfl⟩
  have hown := hc.refused_head hg hin hkind hhead r.active
  obtain ⟨growth, hglobal, hpruned, hseat, hafter⟩ := hc.adopt_start hg htext
  have hresolves := resolve_resolves g s r p must
  generalize (r.resolve g s p must).1 = r', (r.resolve g s p must).2 = taken at hresolves ⊢
  cases hresolves with
  | own htakes => rw [hown] at htakes; cases htakes
  | ancestor _ hnone => rw [hglobal] at hnone; cases hnone
  | refused _ hnone => rw [hglobal] at hnone; cases hnone
  | global _ hfound =>
    cases hglobal.symm.trans hfound
    exact ⟨rfl, ⟨hpruned, hseat, rfl⟩, hafter⟩

/-- **Any other phrase is placed outside of comments**, as the instances around the seat answer it in the pruned
tree. -/
theorem resolve_outside (s : Settings) (must : Bool) (hnote : r.note? = none)
    (hother : p.text = start → r.inText = true) :
    (r.resolve g s p must).2 = (r.answers g p).taken?.isSome ∧
      (∀ k c, (r.answers g p).taken? = some (k, c) →
        (r.resolve g s p must).1.tree.pruned = (r.tree.pruned.apply k c).1 ∧
          (r.resolve g s p must).1.seat = (r.tree.pruned.apply k c).2 ∧
          (r.resolve g s p must).1.tree.stands (r.resolve g s p must).1.active = true) ∧
      ∃ (r' : Run) (l : Leaving), r'.reports = r.reports ∧
        l.unfinished? = ((r.answers g p).refused.find? (r.tree.pruned.needsMore g)).map (r.tree.pruned.place g) ∧
        (r.resolve g s p must).1.reports =
          (reportLeaving g s r' p must (r.answers g p).taken?.isSome l).reports := by
  have hglobal : (r.tree.offer g p r.active).found? = none → (Tree.offerGlobal g p).found? = none := by
    intro hown
    rw [hg.offerGlobal, hg.begin?_of_ne, Option.map_none]
    intro htext
    -- a text would have taken the phrase
    obtain ⟨e, he⟩ := hc.conforms.offer_of_inText (hother htext) p
    rw [he] at hown
    cases hown
  have hout : r.tree.stands r.active = false → r.tree.inText r.active = false := by
    intro hs
    by_contra hin
    rw [stands_of_inText hnote (by simpa [Run.inText] using hin)] at hs
    cases hs
  obtain ⟨htaken, hunfinished, hstands⟩ := hc.offerInOrder_eq hg hout p
  obtain ⟨htook, happly, r', l, hreports, hleaving, hresult⟩ := resolve_chain g s r p must hglobal
  have hsome : (r.answers g p).taken?.isSome = (r.tree.offerInOrder g p (r.tree.chain r.active)).taken?.isSome :=
    (congrArg Option.isSome htaken).trans Option.isSome_map
  refine ⟨htook.trans hsome.symm, fun k c hk => ?_, r', l, hreports, hleaving.trans hunfinished.symm, ?_⟩
  · obtain ⟨⟨id, change⟩, hid, hpair⟩ := Option.map_eq_some_iff.mp (htaken.symm.trans hk)
    cases hpair
    obtain ⟨htree, hactive⟩ := happly id change hid
    obtain ⟨n, hn, ha⟩ := Tree.offer_answers (Tree.offerInOrder_spec hid).2
    obtain ⟨hpruned, hrank, hs⟩ := Tree.pruned_apply hc.arranged hn (hstands id change hid) ha
    rw [htree, seat, htree, hactive, Tree.seat_of_stands hs]
    exact ⟨hpruned, hrank, hs⟩
  · rw [hsome]
    exact hresult

theorem resolve_text (s : Settings) (p : Phrase) (must : Bool) (hnote : r.note? = none) (hin : r.inText = true) :
    ∃ e, (r.answers g p).taken? = some (r.seat, .replace e) ∧ (r.resolve g s p must).1.seat = r.seat ∧
      (r.resolve g s p must).1.tree.pruned.last? r.seat = some e ∧
      (r.resolve g s p must).1.tree.stands (r.resolve g s p must).1.active = true := by
  have hs := stands_of_inText hnote hin
  obtain ⟨n, hn⟩ := Tree.node?_of_lt hc.arranged.active_lt
  obtain ⟨e, he⟩ := hc.conforms.offer_of_inText hin p
  have hseat : r.seat = r.tree.rank r.active := by rw [seat, Tree.seat_of_stands hs]
  have hoffer : (r.tree.pruned.offer g p r.seat).found? = some (.replace (e.renumbered r.tree.rank)) := by
    rw [hseat, Tree.offer_pruned hs hc.arranged.active_lt, Search.found?_map, he]
    rfl
  have htaken : (r.answers g p).taken? = some (r.seat, .replace (e.renumbered r.tree.rank)) := by
    simp only [answers, Tree.chain, Tree.offerInOrder, hoffer]
  obtain ⟨-, happly, -⟩ := resolve_outside hg hc (p := p) s must hnote fun _ => hin
  obtain ⟨hpruned, hafter, hstands⟩ := happly _ _ htaken
  refine ⟨_, htaken, hafter, ?_, hstands⟩
  have hnode : r.tree.pruned.node? r.seat = some (n.trimmed r.tree.rank) := by rw [hseat, Tree.node?_pruned hn hs]
  rw [hpruned, Tree.last?_apply_replace hnode]

/-- **A beginning of `start` is held back**, where no text is open: nothing takes it, and nothing is reported. -/
theorem resolve_head (s : Settings) (hin : r.inText = false) (hkind : p.kind = .chars) (hhead : Heads p.text start)
    (hne : p.text ≠ start) : (r.resolve g s p false).2 = false ∧ (r.resolve g s p false).1.tree = r.tree ∧
      (r.resolve g s p false).1.active = r.active ∧ (r.resolve g s p false).1.reports = r.reports := by
  have hnone : (r.tree.offerInOrder g p (r.tree.chain r.active)).taken? = none :=
    Tree.offerInOrder_of_refused fun j _ => hc.refused_head hg hin hkind hhead j
  obtain ⟨htook, -, r', l, hreports, -, hresult⟩ := resolve_chain g s r p false fun _ => by
    rw [hg.offerGlobal, hg.begin?_of_ne hne, Option.map_none]
  rw [hnone] at htook hresult
  obtain ⟨htree, hactive, -⟩ := (resolve_places g s r p false).refuses htook
  refine ⟨htook, htree, hactive, hresult.trans (.trans ?_ hreports)⟩
  unfold reportLeaving
  cases l.unfinished? <;> rfl

end Placing

/-! ### Reading a comment -/

/-- What was read of the phrase that is being read. -/
def begun (r : Run) : List Char := ((r.buffer?.map Phrase.text).getD "").toList

theorem toList_grown (r : Run) (kind : PhraseKind) (ch : Char) : (r.grown kind ch).text.toList = r.begun ++ [ch] := by
  unfold grown begun
  cases r.buffer? with
  | none => simp [Phrase.single]
  | some p => simp [Phrase.push]

section Reading

variable (hg : g.Comments rule x start) (hbelow : rule ≠ Grammar.topLevel) {chars : List Char} (depth : Nat)

include hg hbelow

theorem readAll_start (hreached : Reached g s text r taken (chars ++ rest)) (hin : r.inText = false)
    (hbuffer : ∀ p, r.buffer? = some p → p.kind = .chars) (hbegun : r.begun ++ chars = start.toList)
    (hne : chars ≠ []) : ∃ r', readAll g s (depth + 1) r chars = some r' ∧ Aside r r' ∧ r'.note? = some start ∧
      r'.buffer? = none ∧ r'.cursor = r.cursor.advanceOver chars := by
  induction chars generalizing r taken with
  | nil => exact absurd rfl hne
  | cons ch chars ih =>
    have hmem : ch ∈ start.toList := by rw [← hbegun]; simp
    have hstep := step_chars s hin hbuffer (hg.start_other ch hmem)
    have hc : (r.hold .chars ch).tree.Commented g rule (r.hold .chars ch).active :=
      (Passes.reached hreached).tree_commented hg hbelow
    have hkind : (r.grown .chars ch).kind = .chars := by
      unfold grown
      cases hb : r.buffer? with
      | none => rfl
      | some p => exact hbuffer p hb
    have htext : (r.grown .chars ch).text.toList ++ chars = start.toList := by rw [toList_grown, ← hbegun]; simp
    have hplaces := resolve_places g s (r.hold .chars ch) (r.grown .chars ch) false
    rw [readAll_cons, readChar_succ, hstep]
    show ∃ r', readAll g s (depth + 1) (r.push g s .chars ch) chars = some r' ∧ _
    rw [push_chars]
    by_cases hlast : chars = []
    · subst hlast
      rw [List.append_nil] at htext
      obtain ⟨htook, haside, hnote⟩ := resolve_start hg hc s false hin hkind (String.toList_inj.mp htext)
      rw [if_pos htook]
      exact ⟨_, rfl, ⟨haside.pruned, haside.seat, haside.reports⟩, hnote, rfl, hplaces.cursor⟩
    · have hhead : Heads (r.grown .chars ch).text start := ⟨grown_text_ne r .chars ch, chars, htext⟩
      have hproper : (r.grown .chars ch).text ≠ start := by
        intro heq
        rw [heq] at htext
        exact hlast (List.append_right_eq_self.mp htext)
      obtain ⟨htook, htree, hactive, hreports⟩ := resolve_head hg hc s hin hkind hhead hproper
      rw [if_neg (by simp [htook])]
      have hnext := hreached.step
      rw [hstep] at hnext
      obtain ⟨taken', hnext⟩ := hnext
      rw [push_chars, if_neg (by simp [htook])] at hnext
      generalize ((r.hold .chars ch).resolve g s (r.grown .chars ch) false).1 = r₁ at *
      have hbuffer₁ : r₁.buffer? = some (r.grown .chars ch) := hplaces.buffer
      have hbegun₁ : r₁.begun = r.begun ++ [ch] := by
        rw [← toList_grown r .chars ch, begun, hbuffer₁]
        rfl
      obtain ⟨r', hread, haside, hnote, hidle, hcursor⟩ := ih hnext (by rw [inText, htree, hactive]; exact hin)
        (fun p hp => by rw [hbuffer₁] at hp; cases hp; exact hkind) (by rw [hbegun₁, ← hbegun]; simp) hlast
      have hheld : Aside r r₁ := ⟨by rw [htree]; rfl, by rw [seat, htree, hactive]; rfl, hreports⟩
      refine ⟨r', hread, hheld.trans haside, hnote, hidle, ?_⟩
      rw [hcursor, hplaces.cursor]
      rfl

/-- **What follows in a comment is read aside**, up to the closing phrase. -/
theorem readAll_note (earlier : List Char) (hreached : Reached g s text r taken (chars ++ rest))
    (hnote : r.note? = some v) (hv : v.toList = start.toList ++ earlier) (hcloses : x.closing.toList <:+ earlier ++ chars)
    (hfirst : ∀ l, l <+: earlier ++ chars → x.closing.toList <:+ l → l = earlier ++ chars) (hne : chars ≠ []) :
    ∃ r', readAll g s (depth + 1) r chars = some r' ∧ Aside r r' ∧ r'.note? = none ∧ r'.buffer? = r.buffer? ∧
      r'.cursor = r.cursor.advanceOver chars := by
  induction chars generalizing r taken v earlier with
  | nil => exact absurd rfl hne
  | cons ch chars ih =>
    have hc : (r.past ch).tree.Commented g rule (r.past ch).active :=
      (Passes.reached hreached).tree_commented hg hbelow
    have hin : r.inText = true := by
      have heq : r.inText = _ := inText_eq hc
      rw [heq, hnote]
      simp
    obtain ⟨-, haside, hafter, hback⟩ := resolve_note hg hc s (.single .chars r.cursor ch) true hnote
    have hplaces := resolve_places g s (r.past ch) (.single .chars r.cursor ch) true
    have hstep : r.step g s ch = (r.takeChar g s ch, []) := by
      unfold step
      rw [hin, if_pos rfl]
      exact giveBack_of_none hback
    have hnext := hreached.step
    rw [hstep] at hnext
    obtain ⟨taken', hnext⟩ := hnext
    rw [readAll_cons, readChar_succ, hstep]
    show ∃ r', readAll g s (depth + 1) (r.takeChar g s ch) chars = some r' ∧ _
    have hcursor : (r.takeChar g s ch).cursor = r.cursor.advance ch := hplaces.cursor
    have hbuffer : (r.takeChar g s ch).buffer? = r.buffer? := hplaces.buffer
    have haside : Aside r (r.takeChar g s ch) := ⟨haside.pruned, haside.seat, haside.reports⟩
    have hafter : (r.takeChar g s ch).note? = if x.closes start.toList.length (v ++ String.singleton ch) then none
        else some (v ++ String.singleton ch) := hafter
    have hvalue : (v ++ String.singleton ch).toList = start.toList ++ (earlier ++ [ch]) := by simp [hv]
    have hends : x.closes start.toList.length (v ++ String.singleton ch) = true ↔
        x.closing.toList <:+ earlier ++ [ch] := by
      rw [TextPart.closes_iff, hvalue, ← String.length_toList, ← String.length_toList, hvalue, List.length_append]
      constructor
      · rintro ⟨-, hlength, hsuffix⟩
        exact List.suffix_of_suffix_length_le hsuffix (List.suffix_append _ _) (by omega)
      · intro hsuffix
        have hlength := hsuffix.length_le
        exact ⟨hg.closing_ne, by omega, hsuffix.trans (List.suffix_append _ _)⟩
    by_cases hlast : chars = []
    · subst hlast
      rw [if_pos (hends.mpr hcloses)] at hafter
      exact ⟨_, rfl, haside, hafter, hbuffer, hcursor⟩
    · have hopen : x.closes start.toList.length (v ++ String.singleton ch) ≠ true := by
        intro htrue
        have heq := hfirst (earlier ++ [ch]) ⟨chars, by simp⟩ (hends.mp htrue)
        simp only [List.append_cancel_left_eq, List.cons.injEq, true_and] at heq
        exact hlast heq.symm
      rw [if_neg hopen] at hafter
      have hassoc : earlier ++ [ch] ++ chars = earlier ++ ch :: chars := by simp
      obtain ⟨r', hread, haside', hnote', hbuffer', hcursor'⟩ := ih (earlier ++ [ch]) hnext hafter hvalue
        (by rwa [hassoc]) (by rwa [hassoc]) hlast
      refine ⟨r', hread, haside.trans haside', hnote', hbuffer'.trans hbuffer, ?_⟩
      rw [hcursor', hcursor]
      rfl

/-- **A comment is read aside**: no phrase is being read and no text is open before and after it, and what can be seen
of the run stays as it is. -/
theorem readAll_comment (hreached : Reached g s text r taken (chars ++ rest)) (hbuffer : r.buffer? = none)
    (hin : r.inText = false) (hcomment : x.Comment start chars) :
    ∃ r', readAll g s (depth + 1) r chars = some r' ∧ Aside r r' ∧ r'.note? = none ∧ r'.buffer? = none ∧
      r'.inText = false ∧ r'.cursor = r.cursor.advanceOver chars := by
  obtain ⟨body, rfl, hcloses, hfirst⟩ := hcomment
  have hbody : body ≠ [] := by
    rintro rfl
    exact hg.closing_ne (String.toList_eq_nil_iff.mp (List.suffix_nil.mp hcloses))
  rw [List.append_assoc] at hreached
  obtain ⟨r₁, hread₁, haside₁, hnote₁, hbuffer₁, hcursor₁⟩ := readAll_start hg hbelow depth hreached hin
    (by simp [hbuffer]) (by simp [begun, hbuffer]) (by simpa using hg.start_ne)
  obtain ⟨taken₁, hreached₁⟩ := hreached.readAll hread₁
  obtain ⟨r₂, hread₂, haside₂, hnote₂, hbuffer₂, hcursor₂⟩ := readAll_note hg hbelow depth [] hreached₁
    hnote₁ (by simp) hcloses hfirst hbody
  obtain ⟨taken₂, hreached₂⟩ := hreached₁.readAll hread₂
  have haside := haside₁.trans haside₂
  refine ⟨r₂, ?_, haside, hnote₂, hbuffer₂.trans hbuffer₁, ?_, ?_⟩
  · rw [readAll_append, hread₁, Option.bind_some, hread₂]
  · have hout : (r.tree.pruned.inText r.seat || r.note?.isSome) = false := by
      rw [← inText_eq ((Passes.reached hreached).tree_commented hg hbelow), hin]
    have hseat : r.tree.pruned.inText r.seat = false := (Bool.or_eq_false_iff.mp hout).1
    rw [inText_eq ((Passes.reached hreached₂).tree_commented hg hbelow), haside.pruned, haside.seat, hseat, hnote₂]
    rfl
  · rw [hcursor₂, hcursor₁, Cursor.advanceOver_append]

end Reading

end Run

end PhraseTree
