import PhraseTree.Run
import PhraseTree.Proofs.Capture.Shift
import PhraseTree.Proofs.Tree.Captures

/-!
# Trees of a text that stands elsewhere

Two trees are compared, the first of a text read from `here`, the second of the same text read from `there`.  Both hold
the same instances; what the entries of an instance took was taken elsewhere or before.

* `Entry.Along`, `Node.Shifted`, `Tree.Shifted σ old` — the correspondence, where `old id` are the captures of the
  instance `id` that were made before;
* `Growth.Later`, `Change.Later` — the same growth or change, with captures made elsewhere;
* `Search.Along R` — searches that give up as much and whose findings are related.

`Tree.Shifted.offer`, `Tree.Shifted.climb`: the instances of both trees answer a phrase alike.
`Tree.Shifted.apply`, `Tree.Shifted.adopt`: the trees still correspond when each has taken its answer.
`Tree.Shifted.leaving_eq`: what is left behind is the same.
-/

namespace PhraseTree

/-! ### Searches -/

/-- Searches that give up as many instances and whose findings are related. -/
structure Search.Along {α β : Type} (R : α → β → Prop) (s : Search α) (t : Search β) : Prop where
  dropped : t.dropped = s.dropped
  found : Option.Rel R s.found? t.found?

namespace Search.Along

variable {α β γ δ : Type} {R : α → β → Prop} {S : γ → δ → Prop} {s s' : Search α} {t t' : Search β} {f : α → γ}
  {f' : β → δ} {o : Option α} {o' : Option β}

theorem fail : (Search.fail : Search α).Along R (Search.fail : Search β) := ⟨rfl, .none⟩

theorem ofOption (h : Option.Rel R o o') : (Search.ofOption o).Along R (Search.ofOption o') := ⟨rfl, h⟩

theorem map (h : s.Along R t) (hf : ∀ a b, R a b → S (f a) (f' b)) : (s.map f).Along S (t.map f') := by
  refine ⟨h.dropped, ?_⟩
  rw [Search.found?_map, Search.found?_map]
  exact rel_map h.found hf

theorem isSome_eq (h : s.Along R t) : t.found?.isSome = s.found?.isSome := by
  obtain ⟨-, hfound⟩ := h
  generalize s.found? = found, t.found? = found' at hfound
  cases hfound <;> rfl

theorem orElse (h : s.Along R t) (h' : s'.Along R t') : (s <|> s').Along R (t <|> t') := by
  rw [Search.orElse_eq, Search.orElse_eq, h.isSome_eq]
  split
  · exact h
  · refine ⟨?_, h'.found⟩
    rw [Search.dropped_after, Search.dropped_after, h.dropped, h'.dropped]

theorem inInstance (h : s.Along R t) : s.inInstance.Along R t.inInstance := by
  obtain ⟨d, found⟩ := s
  obtain ⟨_, found'⟩ := t
  obtain ⟨rfl, hfound⟩ := h
  cases hfound with
  | none => exact ⟨rfl, .none⟩
  | some h => exact ⟨rfl, .some h⟩

end Search.Along

/-! ### Growths -/

/-- The same line of new instances; the phrase that the innermost takes is read elsewhere. -/
inductive Growth.Later (σ : Shift) : Growth → Growth → Prop
  | capture {c d : Capture} (h : c.Later σ (fun _ => False) d) : Later σ (.capture c) (.capture d)
  | fork {f f' : Fork} (h : f.Along (Branch.Later σ fun _ => False) f') : Later σ (.fork f) (.fork f')
  | child {slot : Slot} {rule : RuleId} {growth growth' : Growth} (h : Later σ growth growth') :
      Later σ (.child slot rule growth) (.child slot rule growth')

section Growth

variable {σ : Shift} {p q : Phrase} {inside inside' : RuleId → Search Growth}

theorem Growth.Later.depth_eq {growth growth' : Growth} (h : growth.Later σ growth') :
    growth'.depth = growth.depth := by
  induction h with
  | capture | fork => rfl
  | child _ ih => exact congrArg (· + 1) ih

theorem firstOf_later (hinside : ∀ rule, (inside rule).Along (Growth.Later σ) (inside' rule)) (rules : List RuleId) :
    (firstOf inside rules).Along (fun x y => y.1 = x.1 ∧ x.2.Later σ y.2) (firstOf inside' rules) := by
  induction rules with
  | nil => exact .fail
  | cons rule rest ih => exact .orElse ((hinside rule).inInstance.map fun _ _ h => ⟨rfl, h⟩) ih

theorem growAt_later (hinside : ∀ rule, (inside rule).Along (Growth.Later σ) (inside' rule)) (hp : p.Shifted σ q)
    (i : Nat) (part : Part RuleId) : (growAt inside p i part).Along (Growth.Later σ) (growAt inside' q i part) := by
  cases part with
  | simple part => exact .ofOption (rel_map (part.begin?_later hp i) fun _ _ => .capture)
  | alternatives a => exact .ofOption (rel_map (a.begin?_later hp i) fun _ _ => .fork)
  | choice c =>
    refine (firstOf_later hinside c.candidates).map ?_
    rintro ⟨rule, growth⟩ ⟨_, growth'⟩ ⟨rfl, h⟩
    exact .child h

theorem growFrom_later (hinside : ∀ rule, (inside rule).Along (Growth.Later σ) (inside' rule)) (hp : p.Shifted σ q)
    (i : Nat) (parts : List (Part RuleId)) :
    (growFrom inside p i parts).Along (Growth.Later σ) (growFrom inside' q i parts) := by
  induction parts generalizing i with
  | nil => exact .fail
  | cons part rest ih =>
    refine .orElse (growAt_later hinside hp i part) ?_
    split
    · exact ih (i + 1)
    · exact .fail

theorem Grammar.sprout_later (g : Grammar) (hp : p.Shifted σ q) (rule : RuleId) :
    (g.sprout p rule).Along (Growth.Later σ) (g.sprout q rule) := by
  unfold Grammar.sprout
  generalize g.size = levels
  induction levels generalizing rule with
  | zero => exact .fail
  | succ levels ih => exact growFrom_later ih hp 0 (g.parts rule)

theorem offerGlobal_later (g : Grammar) (hp : p.Shifted σ q) :
    (Tree.offerGlobal g p).Along (fun x y => y.1 = x.1 ∧ x.2.Later σ y.2) (Tree.offerGlobal g q) :=
  firstOf_later (g.sprout_later hp) _

end Growth

/-! ### Entries -/

/-- Entries whose captures or branches correspond. -/
inductive Entry.Along (C : Capture → Capture → Prop) (B : Branch → Branch → Prop) : Entry → Entry → Prop
  | capture {c d : Capture} (h : C c d) : Along C B (.capture c) (.capture d)
  | child (x : Child) : Along C B (.child x) (.child x)
  | fork {f f' : Fork} (h : f.Along B f') : Along C B (.fork f) (.fork f')

/-- The same entry, whose captures were made elsewhere or before. -/
abbrev Entry.Shifted (σ : Shift) (old : Capture → Prop) : Entry → Entry → Prop :=
  Entry.Along (Capture.Shifted σ old) (Branch.Shifted σ old)

/-- The same entry, whose latest captures were made elsewhere. -/
abbrev Entry.Later (σ : Shift) (old : Capture → Prop) : Entry → Entry → Prop :=
  Entry.Along (Capture.Later σ old) (Branch.Later σ old)

section Entry

variable {σ : Shift} {old : Capture → Prop} {e e' : Entry}

theorem Entry.Later.shifted (h : e.Later σ old e') : e.Shifted σ old e' := by
  cases h with
  | capture h => exact .capture (.later h)
  | child x => exact .child x
  | fork h => exact .fork (h.mono fun _ _ => Branch.Later.shifted)

theorem Entry.Shifted.part_eq (h : e.Shifted σ old e') : e'.part = e.part := by
  cases h with
  | capture h => exact h.part_eq
  | child x => rfl
  | fork h => exact h.part

theorem Entry.Shifted.finished_eq (h : e.Shifted σ old e') : e'.finished = e.finished := by
  cases h with
  | capture h => unfold Entry.finished; rw [h.same]
  | child | fork => rfl

theorem Entry.Shifted.inText_eq (h : e.Shifted σ old e') : e'.inText = e.inText := by
  cases h with
  | capture h => unfold Entry.inText; rw [h.same]
  | child x => rfl
  | fork h => exact h.inText_eq

theorem Entry.Shifted.blocks_eq (h : e.Shifted σ old e') : e'.blocks = e.blocks := by
  cases h with
  | capture | child => rfl
  | fork h => exact congrArg (!·) h.satisfied

theorem Entry.Later.settled (h : e.Later σ old e') : e.settled.Later σ old e'.settled := by
  cases h with
  | capture h => exact .capture h.settled
  | child x => exact .child x
  | fork h => exact .fork h.settled

theorem Entry.Later.toReread? (h : e.Later σ old e') : Option.Rel σ.Rereads e.toReread? e'.toReread? := by
  cases h with
  | capture h => exact h.toReread?
  | child x => exact .none
  | fork h => exact h.toReread?

theorem Branch.Later.mono {old' : Capture → Prop} {b b' : Branch} (h : b.Later σ old b') (hold : ∀ x, old x → old' x) :
    b.Later σ old' b' := by
  obtain ⟨hlast, h⟩ := h
  refine ⟨hlast.mono hold, h.imp ?_⟩
  rintro c _ (⟨hc, hin⟩ | hlater)
  · exact .kept (hold c hc) hin
  · exact .later (hlater.mono hold)

/-- What a growth puts down was made elsewhere. -/
theorem Growth.Later.entry {growth growth' : Growth} (h : growth.Later σ growth') (base : NodeId) :
    (growth.entry base).Later σ old (growth'.entry base) := by
  cases h with
  | capture h => exact .capture (h.mono fun _ => False.elim)
  | fork h => exact .fork (h.mono fun _ _ hb => hb.mono fun _ => False.elim)
  | child h =>
    simp only [Growth.entry, h.depth_eq]
    exact .child _

end Entry

/-! ### Instances -/

/-- The same instance, whose entries were taken elsewhere or before. -/
structure Node.Shifted (σ : Shift) (old : Capture → Prop) (m n : Node) : Prop where
  rule : n.rule = m.rule
  parent? : n.parent? = m.parent?
  globals : n.globals = m.globals
  entries : List.Forall₂ (Entry.Shifted σ old) m.entries n.entries

/-- The same change, made by a phrase that is read elsewhere. -/
inductive Change.Later (σ : Shift) (old : Capture → Prop) : Change → Change → Prop
  | replace {e e' : Entry} (h : e.Later σ old e') : Later σ old (.replace e) (.replace e')
  | grow {growth growth' : Growth} (h : growth.Later σ growth') : Later σ old (.grow growth) (.grow growth')

theorem Change.Later.made_eq {σ : Shift} {old : Capture → Prop} {c c' : Change} (h : c.Later σ old c') :
    c'.made = c.made := by
  cases h with
  | replace => rfl
  | grow h => exact h.depth_eq

section Node

variable {σ : Shift} {old : Capture → Prop} {p q : Phrase} {inside inside' : RuleId → Search Growth} {m n : Node}
  {e e' : Entry} {g : Grammar}

theorem RuleChoice.resume_later (hinside : ∀ rule, (inside rule).Along (Growth.Later σ) (inside' rule))
    (hp : p.Shifted σ q) (c : RuleChoice RuleId) (last : Child) :
    (c.resume inside p last).Along (Change.Later σ old) (c.resume inside' q last) := by
  unfold RuleChoice.resume
  rw [hp.text]
  split
  · exact .ofOption (.some (.replace (.child _)))
  · split
    · refine (firstOf_later hinside c.candidates).map ?_
      rintro ⟨rule, growth⟩ ⟨_, growth'⟩ ⟨rfl, h⟩
      exact .grow (.child h)
    · exact .fail

theorem Part.resume_later (hinside : ∀ rule, (inside rule).Along (Growth.Later σ) (inside' rule))
    (hp : p.Shifted σ q) (h : e.Shifted σ old e') (part : Part RuleId) :
    (part.resume inside p e).Along (Change.Later σ old) (part.resume inside' q e') := by
  cases h with
  | child x =>
    cases part with
    | choice c => exact c.resume_later hinside hp x
    | simple | alternatives => exact .fail
  | @capture c d h =>
    cases part with
    | simple part => exact .ofOption (rel_map (part.resume?_later h hp) fun _ _ h => .replace (.capture h))
    | alternatives | choice => exact .fail
  | @fork f f' h =>
    cases part with
    | alternatives a =>
      simp only [Part.resume, h.part]
      exact .ofOption (rel_map (a.resume?_later h hp f.part) fun _ _ h => .replace (.fork h))
    | simple | choice => exact .fail

namespace Node.Shifted

theorem last? (h : m.Shifted σ old n) : Option.Rel (Entry.Shifted σ old) m.last? n.last? := rel_head? h.entries

theorem advance (h : m.Shifted σ old n) (hp : p.Shifted σ q) (g : Grammar) (i : Nat) :
    (m.advance g p i).Along (Change.Later σ old) (n.advance g q i) := by
  unfold Node.advance
  rw [h.rule]
  exact (growFrom_later (g.sprout_later hp) hp i _).map fun _ _ h => .grow h

/-- **An instance answers a phrase alike**, wherever it is read. -/
theorem offer (h : m.Shifted σ old n) (hp : p.Shifted σ q) (g : Grammar) :
    (m.offer g p).Along (Change.Later σ old) (n.offer g q) := by
  have hlast := h.last?
  have hadvance := h.advance hp g
  unfold Node.offer
  rw [h.rule]
  generalize m.last? = e?, n.last? = e'? at hlast
  cases hlast with
  | none => exact hadvance 0
  | @some e e' he =>
    dsimp only
    rw [he.finished_eq, he.part_eq, he.blocks_eq]
    split
    · exact hadvance _
    · cases (g.parts m.rule)[e.part]? with
      | none => exact .fail
      | some part =>
        refine .orElse (part.resume_later (g.sprout_later hp) hp he) ?_
        split
        · exact .fail
        · exact hadvance _

theorem inText_eq (h : m.Shifted σ old n) : n.inText = m.inText := any_eq_of_rel h.last? fun _ _ he => he.inText_eq

theorem needsMore_eq (h : m.Shifted σ old n) (g : Grammar) : n.needsMore g = m.needsMore g := by
  unfold Node.needsMore Node.nextPart
  have hlast := h.last?
  rw [h.rule]
  generalize m.last? = e?, n.last? = e'? at hlast
  cases hlast with
  | none => rfl
  | some he =>
    have hpart := he.part_eq
    cases he with
    | capture | child => simp only [hpart]
    | fork hf => simp only [hpart, hf.satisfied]

theorem place_eq (h : m.Shifted σ old n) (g : Grammar) : n.place g = m.place g := by
  unfold Node.place
  rw [h.rule, map_eq_of_rel h.last? fun _ _ he => he.part_eq]

theorem push (h : m.Shifted σ old n) (he : e.Shifted σ old e') : (m.push e).Shifted σ old (n.push e') :=
  ⟨h.rule, h.parent?, h.globals, .cons he h.entries⟩

theorem replaceLast (h : m.Shifted σ old n) (he : e.Shifted σ old e') :
    (m.replaceLast e).Shifted σ old (n.replaceLast e') := by
  refine ⟨h.rule, h.parent?, h.globals, .cons he ?_⟩
  rw [← List.drop_one, ← List.drop_one]
  exact List.forall₂_drop 1 h.entries

theorem settled (h : m.Shifted σ old n) (hlast : Option.Rel (Entry.Later σ old) m.last? n.last?) :
    Node.Shifted σ old { m with entries := m.entries.modifyHead Entry.settled }
      { n with entries := n.entries.modifyHead Entry.settled } := by
  refine ⟨h.rule, h.parent?, h.globals, ?_⟩
  have hentries := h.entries
  unfold Node.last? at hlast
  dsimp only
  generalize m.entries = es, n.entries = es' at hentries hlast
  cases hentries with
  | nil => exact .nil
  | cons _ hrest =>
    cases hlast with
    | some he => exact .cons he.settled.shifted hrest

theorem pushGlobal (h : m.Shifted σ old n) (x : Child) : (m.pushGlobal x).Shifted σ old (n.pushGlobal x) :=
  ⟨h.rule, h.parent?, congrArg (x :: ·) h.globals, h.entries⟩

end Node.Shifted

/-- The new instances correspond. -/
theorem Growth.Later.nodes {growth growth' : Growth} (h : growth.Later σ growth') (parent base k : NodeId) :
    Option.Rel (Node.Shifted σ old) (growth.nodes parent base)[k]? (growth'.nodes parent base)[k]? := by
  induction h generalizing parent base k with
  | capture | fork => exact .none
  | child h ih =>
    cases k with
    | zero => exact .some ⟨rfl, rfl, rfl, .cons (h.entry _).shifted .nil⟩
    | succ k => exact ih base (base + 1) k

end Node

/-! ### Trees -/

/-- **The same tree, of a text that stands elsewhere.**  Of the captures of the instance `id`, `old id` were made
before. -/
structure Tree.Shifted (σ : Shift) (old : NodeId → Capture → Prop) (t t' : Tree) : Prop where
  size : t'.size = t.size
  nodes : ∀ id, Option.Rel (Node.Shifted σ (old id)) (t.node? id) (t'.node? id)

/-- The latest entry of an instance. -/
def Tree.last? (t : Tree) (id : NodeId) : Option Entry := (t.node? id).bind (·.last?)

/-- An entry that the latest one gave way to is the latest one. -/
theorem Tree.last?_apply_replace {t : Tree} {id : NodeId} {n : Node} (hn : t.node? id = some n) (e : Entry) :
    (t.apply id (.replace e)).1.last? id = some e := by
  show (Tree.node? ⟨t.nodes.modify id (·.replaceLast e)⟩ id).bind Node.last? = some e
  rw [node?_modify, if_pos rfl, hn]
  rfl

/-- Climbs past the same instances to one that answers alike. -/
structure Climb.Along (σ : Shift) (old : NodeId → Capture → Prop) (k k' : Climb) : Prop where
  dropped : k'.dropped = k.dropped
  refused : k'.refused = k.refused
  taken : Option.Rel (fun x y : NodeId × Change => y.1 = x.1 ∧ x.2.Later σ (old x.1) y.2) k.taken? k'.taken?

namespace Tree.Shifted

variable {σ : Shift} {old : NodeId → Capture → Prop} {t t' : Tree} {g : Grammar} {p q : Phrase} {id : NodeId}
  {growth growth' : Growth} {put put' : Node → Node} {c c' : Change}

theorem parent?_eq (h : t.Shifted σ old t') (id : NodeId) : t'.parent? id = t.parent? id := by
  have hnode := h.nodes id
  unfold Tree.parent?
  generalize t.node? id = m?, t'.node? id = n? at hnode
  cases hnode with
  | none => rfl
  | some hn => exact hn.parent?

theorem ancestorsWithin_eq (h : t.Shifted σ old t') (steps : Nat) (id : NodeId) :
    t'.ancestorsWithin steps id = t.ancestorsWithin steps id := by
  induction steps generalizing id with
  | zero => rfl
  | succ steps ih =>
    unfold Tree.ancestorsWithin
    rw [h.parent?_eq]
    cases t.parent? id with
    | none => rfl
    | some parent => simp only [ih]

theorem ancestors_eq (h : t.Shifted σ old t') (id : NodeId) : t'.ancestors id = t.ancestors id :=
  h.ancestorsWithin_eq id id

theorem inText_eq (h : t.Shifted σ old t') (id : NodeId) : t'.inText id = t.inText id :=
  any_eq_of_rel (h.nodes id) fun _ _ hn => hn.inText_eq

theorem needsMore_eq (h : t.Shifted σ old t') (g : Grammar) : t'.needsMore g = t.needsMore g :=
  funext fun id => any_eq_of_rel (h.nodes id) fun _ _ hn => hn.needsMore_eq g

theorem place_eq (h : t.Shifted σ old t') (g : Grammar) : t'.place g = t.place g := by
  funext id
  have hnode := h.nodes id
  unfold Tree.place
  generalize t.node? id = m?, t'.node? id = n? at hnode
  cases hnode with
  | none => rfl
  | some hn => exact hn.place_eq g

/-! #### Offering -/

theorem offer (h : t.Shifted σ old t') (hp : p.Shifted σ q) (g : Grammar) (id : NodeId) :
    (t.offer g p id).Along (Change.Later σ (old id)) (t'.offer g q id) := by
  have hnode := h.nodes id
  unfold Tree.offer
  generalize t.node? id = m?, t'.node? id = n? at hnode
  cases hnode with
  | none => exact .fail
  | some hn => exact hn.offer hp g

theorem offerInOrder (h : t.Shifted σ old t') (hp : p.Shifted σ q) (g : Grammar) (ids : List NodeId) :
    (t.offerInOrder g p ids).Along σ old (t'.offerInOrder g q ids) := by
  induction ids with
  | nil => exact ⟨rfl, rfl, .none⟩
  | cons id rest ih =>
    obtain ⟨hdropped, hfound⟩ := h.offer hp g id
    unfold Tree.offerInOrder
    dsimp only
    generalize (t.offer g p id).found? = found, (t'.offer g q id).found? = found' at hfound
    cases hfound with
    | some hc => exact ⟨hdropped, rfl, .some ⟨rfl, hc⟩⟩
    | none => exact ⟨congrArg₂ (· + ·) hdropped ih.dropped, congrArg (id :: ·) ih.refused, ih.taken⟩

theorem climb (h : t.Shifted σ old t') (hp : p.Shifted σ q) (g : Grammar) (id : NodeId) :
    (t.climb g p id).Along σ old (t'.climb g q id) := by
  rw [Tree.climb_eq, Tree.climb_eq, h.ancestors_eq]
  exact h.offerInOrder hp g _

theorem leaving_eq (h : t.Shifted σ old t') {k k' : Climb} (hk : k.Along σ old k') (g : Grammar) (active : NodeId) :
    t'.leaving g active k' = t.leaving g active k := by
  obtain ⟨-, hrefused, htaken⟩ := hk
  have hfst : k'.taken?.map Prod.fst = k.taken?.map Prod.fst := map_eq_of_rel htaken fun _ _ hx => hx.1
  unfold Tree.leaving
  rw [hrefused, hfst, h.place_eq, h.needsMore_eq]

/-! #### Changing -/

theorem modify (h : t.Shifted σ old t') (hput : ∀ m n, m.Shifted σ (old id) n → (put m).Shifted σ (old id) (put' n)) :
    (⟨t.nodes.modify id put⟩ : Tree).Shifted σ old ⟨t'.nodes.modify id put'⟩ := by
  refine ⟨by simpa [Tree.size] using h.size, fun j => ?_⟩
  rw [node?_modify, node?_modify]
  split
  · next heq =>
    subst heq
    exact rel_map (h.nodes id) hput
  · exact h.nodes j

theorem extend (h : t.Shifted σ old t') (hgrowth : growth.Later σ growth')
    (hput : ∀ m n, m.Shifted σ (old id) n → (put m).Shifted σ (old id) (put' n)) :
    (t.extend id growth put).Shifted σ old (t'.extend id growth' put') := by
  refine ⟨by rw [size_extend, size_extend, h.size, hgrowth.depth_eq], fun j => ?_⟩
  rcases Nat.lt_or_ge j t.size with hj | hj
  · have hnode := (h.modify hput).nodes j
    rwa [node?_extend_of_lt hj, node?_extend_of_lt (by rwa [h.size]), ← node?_modify, ← node?_modify]
  · obtain ⟨k, rfl⟩ := Nat.exists_eq_add_of_le hj
    have hnew := node?_extend_add t' id k growth' put'
    rw [h.size] at hnew
    rw [node?_extend_add, hnew]
    exact hgrowth.nodes id t.size k

theorem taker_eq (hgrowth : growth.Later σ growth') (parent base : NodeId) :
    growth'.taker parent base = growth.taker parent base := by
  rw [Growth.taker_eq, Growth.taker_eq, hgrowth.depth_eq]

/-- **The trees still correspond after a change**, and the same instance took the phrase. -/
theorem apply (h : t.Shifted σ old t') (hc : c.Later σ (old id) c') :
    (t.apply id c).1.Shifted σ old (t'.apply id c').1 ∧ (t'.apply id c').2 = (t.apply id c).2 := by
  cases hc with
  | replace he => exact ⟨h.modify fun _ _ hn => hn.replaceLast he.shifted, rfl⟩
  | grow hgrowth =>
    unfold Tree.apply
    rw [h.size]
    exact ⟨h.extend hgrowth fun _ _ hn => hn.push (hgrowth.entry _).shifted, taker_eq hgrowth _ _⟩

theorem adopt (h : t.Shifted σ old t') (hgrowth : growth.Later σ growth') (g : Grammar) (id : NodeId) (rule : RuleId) :
    (t.adopt g id rule growth).1.Shifted σ old (t'.adopt g id rule growth').1 ∧
      (t'.adopt g id rule growth').2 = (t.adopt g id rule growth).2 := by
  have hline : (Growth.child (g.global.slot 0) rule growth).Later σ (.child (g.global.slot 0) rule growth') :=
    .child hgrowth
  unfold Tree.adopt
  rw [h.size]
  dsimp only
  rw [taker_eq hline]
  exact ⟨h.extend hline fun _ _ hn => hn.pushGlobal _, rfl⟩

/-! #### Giving back -/

/-- What the latest entry of an instance gives back is the same, if it was made elsewhere. -/
theorem toReread? (hlast : Option.Rel (Entry.Later σ (old id)) (t.last? id) (t'.last? id)) :
    Option.Rel σ.Rereads (t.toReread? id) (t'.toReread? id) := by
  show Option.Rel _ ((t.last? id).bind _) ((t'.last? id).bind _)
  generalize t.last? id = e?, t'.last? id = e'? at hlast
  cases hlast with
  | none => exact .none
  | some he => exact he.toReread?

theorem settle (h : t.Shifted σ old t') (hlast : Option.Rel (Entry.Later σ (old id)) (t.last? id) (t'.last? id)) :
    (t.settle id).Shifted σ old (t'.settle id) := by
  refine ⟨by rw [size_settle, size_settle, h.size], fun j => ?_⟩
  have hnode := h.nodes j
  unfold Tree.settle
  rw [node?_modify, node?_modify]
  split
  · next heq =>
    subst heq
    unfold Tree.last? at hlast
    generalize t.node? id = m?, t'.node? id = n? at hnode hlast
    cases hnode with
    | none => exact .none
    | some hn => exact .some (hn.settled hlast)
  · exact hnode

end Tree.Shifted

/-! ### What was made before -/

/-- What an entry holds. -/
def Entry.captures : Entry → List Capture
  | .capture c => [c]
  | .fork f => f.branches.flatMap Branch.captures
  | .child _ => []

/-- The instance `id` holds the capture `c`. -/
def Tree.Records (t : Tree) (id : NodeId) (c : Capture) : Prop :=
  ∃ n e, t.node? id = some n ∧ e ∈ n.entries ∧ c ∈ e.captures

section Records

variable {σ : Shift} {old : Capture → Prop} {g : Grammar} {t : Tree} {active id : NodeId} {c : Capture} {e : Entry}

theorem Entry.Shifted.refl (h : ∀ c ∈ e.captures, old c ∧ c.inText = false) : e.Shifted σ old e := by
  have hkept : ∀ {c}, old c ∧ c.inText = false → c.Shifted σ old c := fun ⟨hold, hin⟩ => .kept hold hin
  cases e with
  | capture c => exact .capture (hkept (h c (List.mem_singleton_self c)))
  | child x => exact .child x
  | fork f =>
    refine .fork ⟨rfl, rfl, List.forall₂_same.mpr fun b hb => ?_⟩
    exact .mk (List.forall₂_same.mpr fun c hc => hkept (h c (List.mem_flatMap.mpr ⟨b, hb, hc⟩)))

/-- A tree without open texts corresponds to itself: all that it holds was made before. -/
theorem Tree.Shifted.refl (h : ∀ id c, t.Records id c → c.inText = false) : t.Shifted σ t.Records t := by
  refine ⟨rfl, fun id => ?_⟩
  cases hn : t.node? id with
  | none => exact .none
  | some n =>
    refine .some ⟨rfl, rfl, rfl, List.forall₂_same.mpr fun e he => .refl fun c hc => ?_⟩
    exact ⟨⟨n, e, hn, he, hc⟩, h id c ⟨n, e, hn, he, hc⟩⟩

theorem Entry.Fits.inText_of_mem {parts : List (Part RuleId)} (h : e.Fits parts) (hc : c ∈ e.captures)
    (hin : c.inText = true) : e.inText = true := by
  cases e with
  | child x => cases hc
  | capture d =>
    cases List.mem_singleton.mp hc
    exact hin
  | fork f =>
    obtain ⟨b, hb, hc⟩ := List.mem_flatMap.mp hc
    obtain ⟨a, -, hf⟩ := h
    obtain ⟨path, -, hprogress⟩ := hf.progress b hb
    have hlast : b.last? = some c := hprogress.head?_of_inText hc hin
    exact List.any_eq_true.mpr ⟨b, hb, by rw [Branch.inText, hlast]; exact hin⟩

/-- Where the active instance is in no text, no capture is open. -/
theorem Tree.Records.inText_eq_false (h : t.Records id c) (hc : t.Conforms g) (ho : t.OpenOnlyAt active)
    (hin : t.inText active = false) : c.inText = false := by
  obtain ⟨n, e, hn, he, hmem⟩ := h
  by_contra hopen
  have hl := hc.legal id n hn
  have hein := (hl.fits e he).inText_of_mem hmem (by simpa using hopen)
  have hnin : n.inText = true := by rw [Node.inText, hl.last?_of_inText he hein]; exact hein
  rw [← ho id n hn hnin] at hin
  simp [Tree.inText, hn, hnin] at hin

end Records

end PhraseTree
