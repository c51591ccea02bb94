import PhraseTree.Run
import PhraseTree.Proofs.Capture.Shape

/-!
# What an instance may answer

The searches of `PhraseTree.Growth` and `PhraseTree.Tree.Offer` go through candidates in order.  What they find is
described here without the order:

* `Grows g p parts i growth` — the growth begins one of `parts` from place `i` on, past optional parts only;
* `Node.Answers g p n change` — a change with which the instance `n` may take `p`, one constructor for each way;
* `Tree.Takes g t active p t' taker` — how a tree takes a phrase: by the active instance, by a global rule, or by an
  instance around the active one.
-/

namespace PhraseTree

variable {g : Grammar} {p : Phrase}

/-! ### Searches -/

namespace Search

variable {α β γ : Type} {s t : Search α} {a : α} {f : α → β} {h : β → γ}

theorem orElse_eq_some :
    (s <|> t).found? = some a ↔ s.found? = some a ∨ s.found? = none ∧ t.found? = some a := by
  rw [found?_orElse]
  cases s.found? <;> simp

theorem orElse_eq_none : (s <|> t).found? = none ↔ s.found? = none ∧ t.found? = none := by
  rw [found?_orElse]
  cases s.found? <;> simp

/-- After a test that failed it is up to the other search. -/
theorem none_orElse (s : Search α) : (ofOption none <|> s) = s := by
  rw [orElse_eq]
  simp [after]

theorem map_map : (s.map f).map h = s.map (h ∘ f) := by simp only [map, Option.map_map]

theorem map_ofOption (o : Option α) : (ofOption o).map f = ofOption (o.map f) := rfl

theorem map_orElse : (s <|> t).map f = (s.map f <|> t.map f) := by
  rw [orElse_eq, orElse_eq, found?_map, Option.isSome_map]
  split
  · rfl
  · rfl

theorem map_inInstance : (s.map f).inInstance = s.inInstance.map f := by
  unfold inInstance
  rw [found?_map]
  cases hs : s.found? with
  | none => rfl
  | some a => rfl

end Search

theorem firstOf_spec {inside : RuleId → Search Growth} {rules : List RuleId} {rule : RuleId} {growth : Growth}
    (h : (firstOf inside rules).found? = some (rule, growth)) :
    rule ∈ rules ∧ (inside rule).found? = some growth := by
  induction rules with
  | nil => cases h
  | cons r rest ih =>
    simp only [firstOf, Search.orElse_eq_some, Search.found?_map, Search.found?_inInstance,
      Option.map_eq_some_iff] at h
    rcases h with ⟨growth', hg, he⟩ | ⟨-, hrest⟩
    · cases he
      exact ⟨by simp, hg⟩
    · obtain ⟨hmem, hin⟩ := ih hrest
      exact ⟨by simp [hmem], hin⟩

/-- **A growth of a list of parts**, begun at place `i` or, past optional parts, at a later one. -/
inductive Grows (g : Grammar) (p : Phrase) : List (Part RuleId) → Nat → Growth → Prop
  | capture {parts : List (Part RuleId)} {i : Nat} {part : SimplePart} {c : Capture} (hle : i ≤ c.part)
      (hskip : Skips Part.isOptional parts i c.part) (hat : parts[c.part]? = some (.simple part))
      (hbegin : part.begin? c.part p = some c) : Grows g p parts i (.capture c)
  | fork {parts : List (Part RuleId)} {i : Nat} {a : Alternatives} {f : Fork} (hle : i ≤ f.part)
      (hskip : Skips Part.isOptional parts i f.part) (hat : parts[f.part]? = some (.alternatives a))
      (hbegin : a.begin? f.part p = some f) : Grows g p parts i (.fork f)
  | child {parts : List (Part RuleId)} {i j : Nat} {c : RuleChoice RuleId} {rule : RuleId} {growth : Growth}
      (hle : i ≤ j) (hskip : Skips Part.isOptional parts i j) (hat : parts[j]? = some (.choice c))
      (hmem : rule ∈ c.candidates) (hgrows : Grows g p (g.parts rule) 0 growth) :
      Grows g p parts i (.child (c.slot j) rule growth)

section Grows

variable {parts rest : List (Part RuleId)} {i levels : Nat} {growth : Growth} {rule : RuleId}

theorem Grows.cons {part : Part RuleId} (hat : parts[i]? = some part) (ho : part.isOptional = true)
    (h : Grows g p parts (i + 1) growth) : Grows g p parts i growth := by
  cases h with
  | capture hle hskip hpart hbegin => exact .capture (by omega) (hskip.cons hat ho) hpart hbegin
  | fork hle hskip hpart hbegin => exact .fork (by omega) (hskip.cons hat ho) hpart hbegin
  | child hle hskip hpart hmem hgrows => exact .child (by omega) (hskip.cons hat ho) hpart hmem hgrows

theorem growAt_grows {inside : RuleId → Search Growth} {part : Part RuleId}
    (hin : ∀ rule growth, (inside rule).found? = some growth → Grows g p (g.parts rule) 0 growth)
    (hat : parts[i]? = some part) (h : (growAt inside p i part).found? = some growth) : Grows g p parts i growth := by
  cases part with
  | simple s =>
    obtain ⟨c, hc, rfl⟩ := Option.map_eq_some_iff.mp h
    have hpart := SimplePart.begin?_part hc
    subst hpart
    exact .capture le_rfl Skips.refl hat hc
  | alternatives a =>
    obtain ⟨f, hf, rfl⟩ := Option.map_eq_some_iff.mp h
    have hpart := (Alternatives.begin?_spec hf).1
    subst hpart
    exact .fork le_rfl Skips.refl hat hf
  | choice c =>
    obtain ⟨⟨rule, growth'⟩, hr, rfl⟩ := Option.map_eq_some_iff.mp h
    obtain ⟨hmem, hg⟩ := firstOf_spec hr
    exact .child le_rfl Skips.refl hat hmem (hin rule growth' hg)

theorem growFrom_grows {inside : RuleId → Search Growth}
    (hin : ∀ rule growth, (inside rule).found? = some growth → Grows g p (g.parts rule) 0 growth)
    (hrest : parts.drop i = rest) (h : (growFrom inside p i rest).found? = some growth) :
    Grows g p parts i growth := by
  induction rest generalizing i with
  | nil => cases h
  | cons part rest ih =>
    have hi : parts[i]? = some part := by rw [← List.head?_drop, hrest]; rfl
    simp only [growFrom, Search.orElse_eq_some] at h
    rcases h with h | ⟨-, h⟩
    · exact growAt_grows hin hi h
    · split at h
      · next ho => exact (ih (by rw [← List.tail_drop, hrest]; rfl) h).cons hi ho
      · cases h

/-- What the search finds in a new instance is a growth of its parts. -/
theorem instantiate_grows (h : (instantiate g p levels rule).found? = some growth) :
    Grows g p (g.parts rule) 0 growth := by
  induction levels generalizing rule growth with
  | zero => cases h
  | succ levels ih => exact growFrom_grows (fun r growth' hr => ih hr) List.drop_zero h

theorem sprout_grows (h : (g.sprout p rule).found? = some growth) : Grows g p (g.parts rule) 0 growth :=
  instantiate_grows h

theorem offerGlobal_spec (h : (Tree.offerGlobal g p).found? = some (rule, growth)) :
    rule ∈ g.global.candidates ∧ Grows g p (g.parts rule) 0 growth := by
  obtain ⟨hmem, hin⟩ := firstOf_spec h
  exact ⟨hmem, sprout_grows hin⟩

end Grows

/-! ### Answers of an instance -/

/-- **The ways in which an instance takes a phrase.** -/
inductive Node.Answers (g : Grammar) (p : Phrase) (n : Node) : Change → Prop
  /-- Its latest capture goes on. -/
  | capture {c c' : Capture} {part : SimplePart} (hlast : n.last? = some (.capture c)) (hfin : c.finished = false)
      (hat : (g.parts n.rule)[c.part]? = some (.simple part)) (hresume : part.resume? p c = some c') :
      n.Answers g p (.replace (.capture c'))
  /-- Its latest fork goes on. -/
  | fork {f f' : Fork} {a : Alternatives} (hlast : n.last? = some (.fork f))
      (hat : (g.parts n.rule)[f.part]? = some (.alternatives a)) (hresume : a.resume? f.part p f = some f') :
      n.Answers g p (.replace (.fork f'))
  /-- The phrase is the separator that is due. -/
  | separator {x : Child} {c : RuleChoice RuleId} (hlast : n.last? = some (.child x))
      (hat : (g.parts n.rule)[x.part]? = some (.choice c)) (hdue : x.separated = false)
      (hsep : c.separator? = some p.text) : n.Answers g p (.replace (.child { x with separated := true }))
  /-- The latest choice makes another instance. -/
  | again {x : Child} {c : RuleChoice RuleId} {rule : RuleId} {growth : Growth} (hlast : n.last? = some (.child x))
      (hat : (g.parts n.rule)[x.part]? = some (.choice c)) (hsep : x.separated = true ∨ x.separatorOptional = true)
      (hplural : c.singular = false) (hmem : rule ∈ c.candidates) (hgrows : Grows g p (g.parts rule) 0 growth) :
      n.Answers g p (.grow (.child (c.slot x.part) rule growth))
  /-- Its first entry. -/
  | first {growth : Growth} (hlast : n.last? = none) (hgrows : Grows g p (g.parts n.rule) 0 growth) :
      n.Answers g p (.grow growth)
  /-- A later part begins, since the latest entry takes nothing more. -/
  | onward {e : Entry} {growth : Growth} (hlast : n.last? = some e)
      (hstuck : e.finished = false → e.blocks = false ∧
        ∃ part, (g.parts n.rule)[e.part]? = some part ∧ (part.resume (g.sprout p) p e).found? = none)
      (hgrows : Grows g p (g.parts n.rule) (e.part + 1) growth) : n.Answers g p (.grow growth)

section Answers

variable {n : Node} {change : Change}

/-- Where an instance grows, one of its parts does. -/
theorem Node.Answers.grows {growth : Growth} (h : n.Answers g p (.grow growth)) :
    ∃ i, Grows g p (g.parts n.rule) i growth := by
  cases h with
  | again hlast hat hsep hplural hmem hgrows => exact ⟨_, .child le_rfl Skips.refl hat hmem hgrows⟩
  | first hlast hgrows => exact ⟨_, hgrows⟩
  | onward hlast hstuck hgrows => exact ⟨_, hgrows⟩

theorem Node.advance_spec {i : Nat} (h : (n.advance g p i).found? = some change) :
    ∃ growth, change = .grow growth ∧ Grows g p (g.parts n.rule) i growth := by
  obtain ⟨growth, hg, rfl⟩ := Option.map_eq_some_iff.mp h
  exact ⟨growth, rfl, growFrom_grows (fun rule growth' => sprout_grows) rfl hg⟩

theorem RuleChoice.resume_answers {c : RuleChoice RuleId} {x : Child} (hlast : n.last? = some (.child x))
    (hat : (g.parts n.rule)[x.part]? = some (.choice c))
    (h : (c.resume (g.sprout p) p x).found? = some change) : n.Answers g p change := by
  unfold RuleChoice.resume at h
  split at h
  · next hsep =>
    cases h
    simp only [Bool.and_eq_true, Bool.not_eq_true', beq_iff_eq] at hsep
    exact .separator hlast hat hsep.1 hsep.2
  · split at h
    · next hplural =>
      simp only [Bool.and_eq_true, Bool.or_eq_true, Bool.not_eq_true'] at hplural
      obtain ⟨⟨rule, growth⟩, hr, rfl⟩ := Option.map_eq_some_iff.mp h
      obtain ⟨hmem, hg⟩ := firstOf_spec hr
      exact .again hlast hat hplural.1 hplural.2 hmem (sprout_grows hg)
    · cases h

theorem Part.resume_answers {part : Part RuleId} {e : Entry} (hlast : n.last? = some e) (hfin : e.finished = false)
    (hat : (g.parts n.rule)[e.part]? = some part)
    (h : (part.resume (g.sprout p) p e).found? = some change) : n.Answers g p change := by
  cases part <;> cases e <;> try cases h
  · obtain ⟨c', hc', rfl⟩ := Option.map_eq_some_iff.mp h
    exact .capture hlast hfin hat hc'
  · exact RuleChoice.resume_answers hlast hat h
  · obtain ⟨f', hf', rfl⟩ := Option.map_eq_some_iff.mp h
    exact .fork hlast hat hf'

theorem Node.offer_answers (h : (n.offer g p).found? = some change) : n.Answers g p change := by
  unfold Node.offer at h
  split at h
  · next hlast =>
    obtain ⟨growth, rfl, hg⟩ := Node.advance_spec h
    exact .first hlast hg
  · next e hlast =>
    split at h
    · next hfin =>
      obtain ⟨growth, rfl, hg⟩ := Node.advance_spec h
      exact .onward hlast (by simp [hfin]) hg
    · next hfin =>
      split at h
      · cases h
      · next part hat =>
        simp only [Search.orElse_eq_some] at h
        rcases h with h | ⟨hnone, h⟩
        · exact Part.resume_answers hlast (by simpa using hfin) hat h
        · split at h
          · cases h
          · next hb =>
            obtain ⟨growth, rfl, hg⟩ := Node.advance_spec h
            exact .onward hlast (fun _ => ⟨by simpa using hb, part, hat, hnone⟩) hg

theorem Tree.offer_answers {t : Tree} {id : NodeId} (h : (t.offer g p id).found? = some change) :
    ∃ n, t.node? id = some n ∧ n.Answers g p change := by
  unfold Tree.offer at h
  split at h
  · next n hn => exact ⟨n, hn, Node.offer_answers h⟩
  · cases h

end Answers

/-! ### Phrases taken by a tree -/

/-- **How a tree takes a phrase.**  A global rule or an instance around the active one takes it only where the active
instance refuses. -/
inductive Tree.Takes (g : Grammar) (t : Tree) (active : NodeId) (p : Phrase) : Tree → NodeId → Prop
  | own {n : Node} {change : Change} (hn : t.node? active = some n) (h : n.Answers g p change) :
      t.Takes g active p (t.apply active change).1 (t.apply active change).2
  | global {rule : RuleId} {growth : Growth} (hown : (t.offer g p active).found? = none)
      (hmem : rule ∈ g.global.candidates) (hgrows : Grows g p (g.parts rule) 0 growth) :
      t.Takes g active p (t.adopt g active rule growth).1 (t.adopt g active rule growth).2
  | ancestor {id : NodeId} {n : Node} {change : Change} (hown : (t.offer g p active).found? = none)
      (hid : id ∈ t.ancestors active) (hn : t.node? id = some n) (h : n.Answers g p change) :
      t.Takes g active p (t.apply id change).1 (t.apply id change).2

theorem Tree.offerInOrder_spec {t : Tree} {ids : List NodeId} {id : NodeId} {change : Change}
    (h : (t.offerInOrder g p ids).taken? = some (id, change)) :
    id ∈ ids ∧ (t.offer g p id).found? = some change := by
  induction ids with
  | nil => cases h
  | cons first rest ih =>
    simp only [offerInOrder] at h
    split at h
    · next c hc => cases h; exact ⟨by simp, hc⟩
    · obtain ⟨hmem, hfound⟩ := ih h
      exact ⟨by simp [hmem], hfound⟩

/-- The instance that takes a phrase is the first that does not refuse it. -/
theorem Tree.offerInOrder_refused {t : Tree} {ids : List NodeId} {id : NodeId} {change : Change}
    (h : (t.offerInOrder g p ids).taken? = some (id, change)) :
    ∃ rest, ids = (t.offerInOrder g p ids).refused ++ id :: rest ∧
      ∀ j ∈ (t.offerInOrder g p ids).refused, (t.offer g p j).found? = none := by
  induction ids with
  | nil => cases h
  | cons first rest ih =>
    simp only [offerInOrder] at h ⊢
    split at h
    · cases h
      exact ⟨rest, by simp⟩
    · next hnone =>
      obtain ⟨further, hrest, hrefused⟩ := ih h
      exact ⟨further, by simpa [hnone] using hrest, by simpa [hnone] using hrefused⟩

/-- Where none of the instances takes a phrase, all refuse it. -/
theorem Tree.offerInOrder_none {t : Tree} {ids : List NodeId} (h : (t.offerInOrder g p ids).taken? = none) :
    (t.offerInOrder g p ids).refused = ids ∧ ∀ j ∈ ids, (t.offer g p j).found? = none := by
  induction ids with
  | nil => exact ⟨rfl, by simp⟩
  | cons first rest ih =>
    simp only [offerInOrder] at h ⊢
    split at h
    · cases h
    · next hnone =>
      obtain ⟨hrefused, hall⟩ := ih h
      exact ⟨by simpa [hnone] using hrefused, by simpa [hnone] using hall⟩

end PhraseTree
