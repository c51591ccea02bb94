import PhraseTree.Proofs.Tree.Conformity
import PhraseTree.Proofs.Tree.Graft

/-!
# Where separators stand

A rule choice with a separator takes it right after an instance, before it is known what follows.

* `Entry.Separates parts e` — the entry is an instance after which the separator of its choice was taken;
* `Node.SeparatorsBetween g n` — after every separator there is a further instance of the same choice, which is plural;
* `Node.Tidy g n` — no separator is followed by an entry of another part;
* `Node.Legal.separatorsBetween_iff`: a tidy instance that has not just taken a separator has them between instances only;
* `Tree.Evolves t t'` — what one phrase makes of the entries of a tree: in each instance at most the latest entry gives
  way to one of the same part, or a further entry follows (`Tree.Takes.evolves`);
* `Tree.Evolves.tidy_iff`: an instance that is tidy stays so unless it goes past a separator (`Tree.GoesPast`).
-/

namespace PhraseTree

variable {g : Grammar} {p : Phrase}

/-! ### Instances -/

/-- The separator of a choice. -/
def Part.separator? : Part RuleId → Option String
  | .choice c => c.separator?
  | .simple _ | .alternatives _ => none

/-- Whether the part is a choice that takes several instances. -/
def Part.isPlural : Part RuleId → Bool
  | .choice c => !c.singular
  | .simple _ | .alternatives _ => false

/-- **The entry is an instance after which the separator of its choice was taken.** -/
def Entry.Separates (parts : List (Part RuleId)) : Entry → Prop
  | .child x => ((parts[x.part]?).bind Part.separator?).isSome = true ∧ x.separated = true
  | .capture _ | .fork _ => False

/-- The later entry is a further instance of the same choice, which takes several. -/
def Entry.Continues (parts : List (Part RuleId)) : Entry → Entry → Prop
  | .child y, .child x => y.part = x.part ∧ (parts[x.part]?).any Part.isPlural = true
  | _, _ => False

instance (parts : List (Part RuleId)) (e : Entry) : Decidable (e.Separates parts) :=
  match e with
  | .child _ => inferInstanceAs (Decidable (_ ∧ _))
  | .capture _ | .fork _ => inferInstanceAs (Decidable False)

instance (parts : List (Part RuleId)) (later earlier : Entry) : Decidable (later.Continues parts earlier) :=
  match later, earlier with
  | .child _, .child _ => inferInstanceAs (Decidable (_ ∧ _))
  | .child _, .capture _ | .child _, .fork _ | .capture _, _ | .fork _, _ => inferInstanceAs (Decidable False)

theorem Entry.Continues.part_eq {parts : List (Part RuleId)} {later earlier : Entry} (h : later.Continues parts earlier) :
    later.part = earlier.part := by
  cases later with
  | child y =>
    cases earlier with
    | child x => exact h.1
    | capture | fork => cases h
  | capture | fork => cases h

/-- **Separators stand between instances only.**  After each there is a further instance of the same choice.  Entries are
kept latest first. -/
structure Node.SeparatorsBetween (g : Grammar) (n : Node) : Prop where
  latest : ∀ e ∈ n.last?, ¬ e.Separates (g.parts n.rule)
  others : n.entries.IsChain fun later earlier => earlier.Separates (g.parts n.rule) →
    later.Continues (g.parts n.rule) earlier

instance (g : Grammar) (n : Node) : Decidable (n.SeparatorsBetween g) :=
  decidable_of_iff _ ⟨fun h => ⟨h.1, h.2⟩, fun h => And.intro h.latest h.others⟩

/-- No separator is followed by an entry of another part. -/
def Entry.Tidy (parts : List (Part RuleId)) (entries : List Entry) : Prop :=
  entries.IsChain fun later earlier => earlier.Separates parts → later.part = earlier.part

/-- **The instance never went past a separator** that it had taken. -/
def Node.Tidy (g : Grammar) (n : Node) : Prop := Entry.Tidy (g.parts n.rule) n.entries

/-- **Two entries of one part** that follow each other are instances of a plural choice, and its separator stands between
them unless it may be left out. -/
theorem Entry.Follows.same_part {parts : List (Part RuleId)} {earlier later : Entry} (h : earlier.Follows parts later)
    (hfits : later.Fits parts) (hpart : later.part = earlier.part) :
    ∃ x y c, later = .child y ∧ earlier = .child x ∧ y.part = x.part ∧ parts[x.part]? = some (.choice c) ∧
      c.singular = false ∧ (x.separated = true ∨ c.separatorOptional = true) := by
  obtain ⟨-, ⟨hlt, -⟩ | ⟨-, c, x, hat, rfl, hplural, hsep⟩⟩ := h
  · omega
  · cases later with
    | child y =>
      have hpart : y.part = x.part := hpart
      have hat : parts[y.part]? = some (.choice c) := hat
      exact ⟨x, y, c, rfl, rfl, hpart, by rw [← hpart]; exact hat, hplural, hsep⟩
    | capture d =>
      obtain ⟨part, hat', -⟩ := hfits
      have hat : parts[d.part]? = some (.choice c) := hat
      cases hat.symm.trans hat'
    | fork f =>
      obtain ⟨a, hat', -⟩ := hfits
      have hat : parts[f.part]? = some (.choice c) := hat
      cases hat.symm.trans hat'

namespace Node.Legal

variable {n : Node}

theorem same_part (h : n.Legal g) : n.entries.IsChain fun later earlier => later.part = earlier.part →
    ∃ x y c, later = .child y ∧ earlier = .child x ∧ y.part = x.part ∧ (g.parts n.rule)[x.part]? = some (.choice c) ∧
      c.singular = false ∧ (x.separated = true ∨ c.separatorOptional = true) := by
  refine h.follows.imp_of_mem_imp fun later earlier hlater _ hfollows hpart => ?_
  exact hfollows.same_part (h.fits later hlater) hpart

/-- **Separators stand between instances only** if the instance is tidy and has not just taken one. -/
theorem separatorsBetween_iff (h : n.Legal g) :
    n.SeparatorsBetween g ↔ (∀ e ∈ n.last?, ¬ e.Separates (g.parts n.rule)) ∧ n.Tidy g := by
  constructor
  · rintro ⟨hlatest, hothers⟩
    exact ⟨hlatest, hothers.imp fun later earlier hcontinues hsep => (hcontinues hsep).part_eq⟩
  · rintro ⟨hlatest, htidy⟩
    refine ⟨hlatest, List.isChain_iff_forall_rel_of_append_cons_cons.mpr fun later earlier before after hsplit hsep => ?_⟩
    have hpart := List.isChain_iff_forall_rel_of_append_cons_cons.mp htidy hsplit hsep
    have hsame := List.isChain_iff_forall_rel_of_append_cons_cons.mp h.same_part hsplit hpart
    obtain ⟨x, y, c, rfl, rfl, hparts, hat, hplural, -⟩ := hsame
    exact ⟨hparts, by simp [hat, Part.isPlural, hplural]⟩

end Node.Legal

/-! ### What one phrase makes of entries -/

/-- **What one phrase makes of the entries of an instance**, the latest first. -/
inductive Entry.Evolves : List Entry → List Entry → Prop
  | same {entries : List Entry} : Evolves entries entries
  /-- The latest gives way to one of the same part. -/
  | latest {e e' : Entry} {rest : List Entry} (hpart : e'.part = e.part) : Evolves (e :: rest) (e' :: rest)
  /-- A further one follows. -/
  | further {entries : List Entry} (e : Entry) : Evolves entries (e :: entries)

namespace Entry

variable {parts : List (Part RuleId)} {e e' : Entry} {rest entries entries' : List Entry}

/-- A further entry goes past the separator that the latest one took. -/
def GoesPast (parts : List (Part RuleId)) (entries entries' : List Entry) : Prop :=
  ∃ last e rest, entries = last :: rest ∧ entries' = e :: last :: rest ∧ last.Separates parts ∧ e.part ≠ last.part

theorem tidy_congr (hpart : e'.part = e.part) : Tidy parts (e' :: rest) ↔ Tidy parts (e :: rest) := by
  unfold Tidy
  cases rest with
  | nil => simp
  | cons d rest => rw [List.isChain_cons_cons, List.isChain_cons_cons, hpart]

/-- **Entries that are tidy stay so unless a further one goes past a separator.** -/
theorem Evolves.tidy_iff (h : Evolves entries entries') :
    Tidy parts entries' ↔ Tidy parts entries ∧ ¬ GoesPast parts entries entries' := by
  cases h with
  | same =>
    have hnot : ¬ GoesPast parts entries entries := by
      rintro ⟨last, e, rest, rfl, hsame, -⟩
      exact List.cons_ne_self _ _ hsame.symm
    exact (and_iff_left hnot).symm
  | @latest e e' rest hpart =>
    have hnot : ¬ GoesPast parts (e :: rest) (e' :: rest) := by
      rintro ⟨last, d, rest', hold, hnew, -⟩
      have hold := congrArg List.length hold
      have hnew := congrArg List.length hnew
      simp only [List.length_cons] at hold hnew
      omega
    rw [tidy_congr hpart]
    exact (and_iff_left hnot).symm
  | further e =>
    unfold Tidy
    cases entries with
    | nil => simp [GoesPast]
    | cons last rest =>
      rw [List.isChain_cons_cons, and_comm]
      refine and_congr_right fun _ => ?_
      constructor
      · rintro hsame ⟨_, _, _, hold, hnew, hsep, hne⟩
        cases hold
        cases hnew
        exact hne (hsame hsep)
      · intro hnot hsep
        by_contra hne
        exact hnot ⟨last, e, rest, rfl, rfl, hsep, hne⟩

/-- Leaving a text that was just closed is part of what the phrase made of the entries. -/
theorem Evolves.settled (h : Evolves entries entries') : Evolves entries (entries'.modifyHead Entry.settled) := by
  cases h with
  | same =>
    cases entries with
    | nil => exact .same
    | cons e rest => exact .latest e.part_settled
  | latest hpart => exact .latest (e := _) ((part_settled _).trans hpart)
  | further e => exact .further e.settled

end Entry

/-! ### Trees -/

namespace Tree

/-- **What one phrase makes of the entries of a tree.**  An instance keeps its rule, and a new one has one entry. -/
structure Evolves (t t' : Tree) : Prop where
  old : ∀ id n, t.node? id = some n → ∃ n', t'.node? id = some n' ∧ n'.rule = n.rule ∧ Entry.Evolves n.entries n'.entries
  new : ∀ id n', t.node? id = none → t'.node? id = some n' → ∃ e, n'.entries = [e]

/-- The instance `id` goes past a separator: its latest entry had taken one, and an entry of another part follows. -/
def GoesPast (g : Grammar) (t t' : Tree) (id : NodeId) : Prop :=
  ∃ n n', t.node? id = some n ∧ t'.node? id = some n' ∧ Entry.GoesPast (g.parts n.rule) n.entries n'.entries

variable {t t' : Tree} {id active taker depth : NodeId} {n n' : Node}

theorem Evolves.refl (t : Tree) : t.Evolves t where
  old _ n hn := ⟨n, hn, rfl, .same⟩
  new _ n' hnone hn' := by
    rw [hnone] at hn'
    cases hn'

theorem Graft.evolves (h : t.Graft id n n' depth t' taker) (he : Entry.Evolves n.entries n'.entries) : t.Evolves t' where
  old := by
    intro j m hm
    by_cases hj : j = id
    · subst hj
      cases hm.symm.trans h.before
      exact ⟨n', h.after, h.rule, he⟩
    · exact ⟨m, (h.others j (lt_size_of_node? hm) hj).trans hm, rfl, .same⟩
  new := by
    intro j m hnone hm
    rcases h.old_or_new (lt_size_of_node? hm) with hold | ⟨k, hk, rfl⟩
    · obtain ⟨m', hm'⟩ := node?_of_lt hold
      rw [hnone] at hm'
      cases hm'
    · obtain ⟨rule, e, hnode, -⟩ := h.line k hk
      rw [hnode] at hm
      cases hm
      exact ⟨e, rfl⟩

/-- **A tree that takes a phrase evolves.** -/
theorem Takes.evolves (h : t.Takes g active p t' taker) (hlt : active < t.size) : t.Evolves t' := by
  have happly : ∀ {id n change}, t.node? id = some n → n.Answers g p change → t.Evolves (t.apply id change).1 := by
    intro id n change hn ha
    refine (graft_apply hn ha).evolves ?_
    have halters := ha.alters t.size
    generalize change.on t.size n = n' at halters
    have hlatest : ∀ {last e : Entry}, n.last? = some last → e.part = last.part →
        Entry.Evolves n.entries (n.replaceLast e).entries := by
      intro last e hlast hpart
      obtain ⟨rest, hn⟩ : ∃ rest, n.entries = last :: rest := List.head?_eq_some_iff.mp hlast
      simp only [Node.replaceLast, hn, List.tail_cons]
      exact .latest hpart
    cases halters with
    | appended e => exact .further e
    | capture hlast hpart => exact hlatest hlast hpart
    | fork hlast hpart => exact hlatest hlast hpart
    | separator hlast => exact hlatest hlast rfl
  cases h with
  | own hn ha => exact happly hn ha
  | ancestor hown hid hn ha => exact happly hn ha
  | global hown hmem hgrows =>
    obtain ⟨n, hn⟩ := node?_of_lt hlt
    obtain ⟨x, hgraft⟩ := graft_adopt g hn _ _
    exact hgraft.evolves .same

theorem Evolves.settle (h : t.Evolves t') (id : NodeId) : t.Evolves (t'.settle id) where
  old := by
    intro j n hn
    obtain ⟨n', hn', hrule, he⟩ := h.old j n hn
    rw [Tree.settle, node?_modify, hn']
    split
    · exact ⟨_, rfl, hrule, he.settled⟩
    · exact ⟨n', rfl, hrule, he⟩
  new := by
    intro j n' hnone hn'
    rcases node?_modify_cases hn' with ⟨-, hold⟩ | ⟨m, rfl, hm, rfl⟩
    · exact h.new j n' hnone hold
    · obtain ⟨e, he⟩ := h.new _ m hnone hm
      exact ⟨e.settled, by rw [he, List.modifyHead_cons]⟩

/-- **An instance is tidy unless it was not before or goes past a separator.** -/
theorem Evolves.tidy_iff (h : t.Evolves t') (id : NodeId) :
    (∃ n', t'.node? id = some n' ∧ ¬ n'.Tidy g) ↔ (∃ n, t.node? id = some n ∧ ¬ n.Tidy g) ∨ GoesPast g t t' id := by
  cases hn : t.node? id with
  | none =>
    have hpast : ¬ GoesPast g t t' id := by
      rintro ⟨n, -, hn', -⟩
      rw [hn] at hn'
      cases hn'
    have htidy : ¬ ∃ n', t'.node? id = some n' ∧ ¬ n'.Tidy g := by
      rintro ⟨n', hn', hnot⟩
      obtain ⟨e, he⟩ := h.new id n' hn hn'
      refine hnot ?_
      rw [Node.Tidy, he]
      exact List.isChain_singleton e
    simp [hpast, htidy]
  | some n =>
    obtain ⟨n', hn', hrule, he⟩ := h.old id n hn
    have hiff : n'.Tidy g ↔ n.Tidy g ∧ ¬ Entry.GoesPast (g.parts n.rule) n.entries n'.entries := by
      rw [Node.Tidy, hrule]
      exact he.tidy_iff
    have hpast : GoesPast g t t' id ↔ Entry.GoesPast (g.parts n.rule) n.entries n'.entries := by
      simp [GoesPast, hn, hn']
    have hnew : (∃ m, t'.node? id = some m ∧ ¬ m.Tidy g) ↔ ¬ n'.Tidy g := by simp [hn']
    rw [hpast, hnew, hiff, not_and_or, not_not]
    simp

end Tree

end PhraseTree
