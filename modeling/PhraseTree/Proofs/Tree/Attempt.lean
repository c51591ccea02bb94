import PhraseTree.Proofs.Tree.Conformity

/-!
# Attempts in place

A search looks for what takes a phrase before anything is changed.  The same can be done on the tree itself: a
candidate is tried in a new instance at the end of the tree, which in turn tries its candidates behind it, and the tree
is cut back where a candidate refuses.  `Trial.offer`, `Trial.adopt` and `Trial.climb` do this, on a `Trial` that also
counts the instances set up and given up.

* `Trial.Restores ask` — where `ask` refuses, it leaves the tree as it was;
* `Trial.offer_restores`, `Trial.adopt_restores`: attempts in place do, whatever was tried on the way;
* `Trial.offer_eq`, `Trial.adopt_eq`, `Trial.climb_eq`: an attempt in place comes to what the search finds, carried out
  (`Trial.carry`).
-/

namespace PhraseTree

/-! ### Trials -/

/-- A tree on which candidates are tried. -/
structure Trial where
  tree : Tree
  /-- How many instances were set up. -/
  created : Nat
  /-- How many of them were given up. -/
  dropped : Nat

namespace Trial

/-- Sets up a new instance at the end of the tree. -/
def setUp (w : Trial) (rule : RuleId) (parent : Nat) : Trial :=
  { w with tree := ⟨w.tree.nodes.push (.fresh rule (some parent))⟩, created := w.created + 1 }

/-- Gives the instance `mark` up, with all that were set up after it. -/
def giveUp (w : Trial) (mark : Nat) : Trial :=
  { w with tree := ⟨w.tree.nodes.take mark⟩, dropped := w.dropped + 1 }

/-- Changes the instance `id`. -/
def put (w : Trial) (id : Nat) (f : Node → Node) : Trial := { w with tree := ⟨w.tree.nodes.modify id f⟩ }

@[simp] theorem created_setUp (w : Trial) (rule : RuleId) (parent : Nat) :
    (w.setUp rule parent).created = w.created + 1 := rfl

@[simp] theorem dropped_setUp (w : Trial) (rule : RuleId) (parent : Nat) :
    (w.setUp rule parent).dropped = w.dropped := rfl

section Attempts

variable (ask : Trial → Nat → Option Nat × Trial) (p : Phrase) (id : Nat)

/-- Tries rules in order, each in a new instance below `parent`.  Gives the new instance that was kept, and the one that
took the phrase. -/
def tryRules (parent : Nat) : List RuleId → Trial → Option (Nat × Nat) × Trial
  | [], w => (none, w)
  | rule :: rest, w =>
    let child := w.tree.size
    match ask (w.setUp rule parent) child with
    | (some deepest, w') => (some (child, deepest), w')
    | (none, w') => tryRules parent rest (w'.giveUp child)

/-- Tries rules below the instance `id`, where `put` puts down the new instance that is kept. -/
def tryBelow (rules : List RuleId) (put : Nat → Nat → Node → Node) (w : Trial) : Option Nat × Trial :=
  match tryRules ask id rules w with
  | (some (child, deepest), w') => (some deepest, w'.put id (put child deepest))
  | (none, w') => (none, w')

/-- Lets the instance `id` begin the part at place `i`. -/
def beginPart (i : Nat) (w : Trial) : Part RuleId → Option Nat × Trial
  | .simple part =>
    match part.begin? i p with
    | some c => (some id, w.put id (·.push (.capture c)))
    | none => (none, w)
  | .alternatives a =>
    match a.begin? i p with
    | some f => (some id, w.put id (·.push (.fork f)))
    | none => (none, w)
  | .choice c =>
    tryBelow ask id c.candidates (fun child deepest n => n.push (.child { c.slot i with node := child, deepest })) w

/-- Lets the instance `id` begin the first part that can; a required one that cannot ends the attempt. -/
def beginFrom : Nat → List (Part RuleId) → Trial → Option Nat × Trial
  | _, [], w => (none, w)
  | i, part :: rest, w =>
    match beginPart ask p id i w part with
    | (some taker, w') => (some taker, w')
    | (none, w') => if part.isOptional then beginFrom (i + 1) rest w' else (none, w')

/-- What becomes of the latest entry. -/
inductive Extension where
  /-- It took the phrase, or `taker` did so below it. -/
  | absorbed (taker : Nat)
  /-- It does not take the phrase; a later part may. -/
  | rejected
  /-- It does not take the phrase, and no later part may. -/
  | blocked

/-- Lets the latest instance of a rule choice take its separator, or makes another one. -/
def extendChoice (c : RuleChoice RuleId) (last : Child) (w : Trial) : Extension × Trial :=
  if !last.separated && c.separator? == some p.text then
    (.absorbed id, w.put id (·.replaceLast (.child { last with separated := true })))
  else if (last.separated || last.separatorOptional) && !c.singular then
    let put := fun child deepest (n : Node) => n.push (.child { c.slot last.part with node := child, deepest })
    match tryBelow ask id c.candidates put w with
    | (some taker, w') => (.absorbed taker, w')
    | (none, w') => (.rejected, w')
  else (.rejected, w)

/-- Lets the latest entry go on. -/
def extend (w : Trial) : Part RuleId → Entry → Extension × Trial
  | .simple part, .capture c =>
    match part.resume? p c with
    | some c' => (.absorbed id, w.put id (·.replaceLast (.capture c')))
    | none => (.rejected, w)
  | .alternatives a, .fork f =>
    match a.resume? f.part p f with
    | some f' => (.absorbed id, w.put id (·.replaceLast (.fork f')))
    | none => (if f.satisfied then .rejected else .blocked, w)
  | .choice c, .child last => extendChoice ask p id c last w
  | _, _ => (.rejected, w)

end Attempts

/-- Offers `p` to the instance `id`, with at most `levels` instances nested in each other, `id` among them. -/
def offer (g : Grammar) (p : Phrase) : Nat → Trial → Nat → Option Nat × Trial
  | 0, w, _ => (none, w)
  | levels + 1, w, id =>
    match w.tree.node? id with
    | none => (none, w)
    | some n =>
      let parts := g.parts n.rule
      let onward := fun i => beginFrom (offer g p levels) p id i (parts.drop i)
      match n.last? with
      | none => onward 0 w
      | some last =>
        if last.finished then onward (last.part + 1) w
        else
          match parts[last.part]? with
          | none => (none, w)
          | some part =>
            match extend (offer g p levels) p id w part last with
            | (.absorbed taker, w') => (some taker, w')
            | (.blocked, w') => (none, w')
            | (.rejected, w') => onward (last.part + 1) w'

/-- Offers `p` to the global rules on behalf of the instance `id`. -/
def adopt (g : Grammar) (p : Phrase) (levels : Nat) (w : Trial) (id : Nat) : Option Nat × Trial :=
  let put := fun child deepest (n : Node) => n.pushGlobal { g.global.slot 0 with node := child, deepest }
  tryBelow (offer g p levels) id g.global.candidates put w

/-- Offers `p` to at most `steps` instances around `id`, the nearest first.  Gives those that refuse, and the one that
changes with the one that takes the phrase. -/
def climb (g : Grammar) (p : Phrase) : Nat → Trial → Nat → List Nat × Option (Nat × Nat) × Trial
  | 0, w, _ => ([], none, w)
  | steps + 1, w, id =>
    match w.tree.parent? id with
    | none => ([], none, w)
    | some parent =>
      match offer g p (g.size + 1) w parent with
      | (some taker, w') => ([], some (parent, taker), w')
      | (none, w') =>
        let further := climb g p steps w' parent
        (parent :: further.1, further.2)

/-! ### What is refused -/

/-- Where `ask` refuses, the tree is as it was. -/
def Restores (ask : Trial → Nat → Option Nat × Trial) : Prop :=
  ∀ w id w', ask w id = (none, w') → w'.tree = w.tree

section Restores

variable {ask : Trial → Nat → Option Nat × Trial} {p : Phrase} {id parent i : Nat} {w w' : Trial}

/-- Giving a new instance up leads back to the tree without it. -/
theorem giveUp_eq {rule : RuleId} (h : w'.tree = (w.setUp rule parent).tree) :
    w'.giveUp w.tree.size = ⟨w.tree, w'.created, w'.dropped + 1⟩ := by
  simp [giveUp, h, setUp, Tree.size]

variable (hask : Restores ask)

include hask

theorem tryRules_restores {rules : List RuleId} (h : tryRules ask parent rules w = (none, w')) :
    w'.tree = w.tree := by
  induction rules generalizing w with
  | nil =>
    cases h
    rfl
  | cons rule rest ih =>
    simp only [tryRules] at h
    split at h
    · cases h
    · next w₁ hrefused => rw [ih h, giveUp_eq (hask _ _ _ hrefused)]

theorem tryBelow_restores {rules : List RuleId} {put : Nat → Nat → Node → Node}
    (h : tryBelow ask id rules put w = (none, w')) : w'.tree = w.tree := by
  unfold tryBelow at h
  split at h
  · cases h
  · next w₁ hrefused =>
    cases h
    exact tryRules_restores hask hrefused

theorem beginPart_restores {part : Part RuleId} (h : beginPart ask p id i w part = (none, w')) :
    w'.tree = w.tree := by
  unfold beginPart at h
  split at h
  · split at h <;> cases h
    rfl
  · split at h <;> cases h
    rfl
  · exact tryBelow_restores hask h

theorem beginFrom_restores {parts : List (Part RuleId)} (h : beginFrom ask p id i parts w = (none, w')) :
    w'.tree = w.tree := by
  induction parts generalizing i w with
  | nil =>
    cases h
    rfl
  | cons part rest ih =>
    simp only [beginFrom] at h
    split at h
    · cases h
    · next w₁ hrefused =>
      have hpart := beginPart_restores hask hrefused
      split at h
      · rw [ih h, hpart]
      · cases h
        exact hpart

theorem extendChoice_restores {c : RuleChoice RuleId} {last : Child} {e : Extension}
    (h : extendChoice ask p id c last w = (e, w')) (he : ∀ taker, e ≠ .absorbed taker) : w'.tree = w.tree := by
  simp only [extendChoice] at h
  split at h
  · cases h
    exact absurd rfl (he id)
  · split at h
    · split at h
      · next taker w₁ _ =>
        cases h
        exact absurd rfl (he taker)
      · next w₁ hrefused =>
        cases h
        exact tryBelow_restores hask hrefused
    · cases h
      rfl

/-- Where the latest entry does not go on, the tree is as it was. -/
theorem extend_restores {part : Part RuleId} {last : Entry} {e : Extension}
    (h : extend ask p id w part last = (e, w')) (he : ∀ taker, e ≠ .absorbed taker) : w'.tree = w.tree := by
  unfold extend at h
  split at h
  · split at h
    · cases h
      exact absurd rfl (he id)
    · cases h
      rfl
  · split at h
    · cases h
      exact absurd rfl (he id)
    · cases h
      rfl
  · exact extendChoice_restores hask h he
  · cases h
    rfl

end Restores

/-- **An instance that refuses a phrase leaves the tree as it was**, whatever was tried on the way. -/
theorem offer_restores (g : Grammar) (p : Phrase) (levels : Nat) : Restores (offer g p levels) := by
  -- one level further down, new instances are asked with one level less
  induction levels with
  | zero =>
    intro w id w' h
    cases h
    rfl
  | succ levels ih =>
    intro w id w' h
    unfold offer at h
    split at h
    · cases h
      rfl
    · next n hn =>
      dsimp only at h
      split at h
      · exact beginFrom_restores ih h
      · next last hlast =>
        split at h
        · exact beginFrom_restores ih h
        · split at h
          · cases h
            rfl
          · next part hat =>
            split at h
            · cases h
            · next w₁ hblocked =>
              cases h
              exact extend_restores ih hblocked (by simp)
            · next w₁ hrejected =>
              -- both the latest entry and the later parts refuse, one after the other
              have hsame := extend_restores ih hrejected (by simp)
              rw [beginFrom_restores ih h, hsame]

theorem adopt_restores (g : Grammar) (p : Phrase) (levels : Nat) : Restores (adopt g p levels) := by
  intro w id w' h
  exact tryBelow_restores (offer_restores g p levels) h

/-! ### What the search finds -/

section Carry

variable {α β γ : Type}

/-- The outcome of a search, carried out on `w`: what was given up is counted, and what was found is done by `act`,
which makes as many instances as `made` says. -/
def carry (w : Trial) (s : Search α) (made : α → Nat) (act : Tree → α → Tree × β) : Option β × Trial :=
  match s.found? with
  | some a => (some (act w.tree a).2, ⟨(act w.tree a).1, w.created + s.dropped + made a, w.dropped + s.dropped⟩)
  | none => (none, ⟨w.tree, w.created + s.dropped, w.dropped + s.dropped⟩)

variable {w : Trial} {s t : Search α} {made : α → Nat} {act : Tree → α → Tree × β}

theorem carry_of_found {a : α} (h : s.found? = some a) : w.carry s made act =
    (some (act w.tree a).2, ⟨(act w.tree a).1, w.created + s.dropped + made a, w.dropped + s.dropped⟩) := by
  simp only [carry, h]

theorem carry_of_none (h : s.found? = none) :
    w.carry s made act = (none, ⟨w.tree, w.created + s.dropped, w.dropped + s.dropped⟩) := by
  simp only [carry, h]

@[simp] theorem carry_fail : w.carry (.fail : Search α) made act = (none, w) := rfl

@[simp] theorem carry_ofOption_some {a : α} : w.carry (.ofOption (some a)) made act =
    (some (act w.tree a).2, ⟨(act w.tree a).1, w.created + made a, w.dropped⟩) := rfl

@[simp] theorem carry_ofOption_none : w.carry (.ofOption none : Search α) made act = (none, w) := rfl

theorem carry_map {f : γ → α} {s : Search γ} :
    w.carry (s.map f) made act = w.carry s (fun c => made (f c)) fun t c => act t (f c) := by
  unfold carry
  rw [Search.found?_map, Search.dropped_map]
  cases s.found? <;> rfl

theorem carry_after {n : Nat} :
    w.carry (s.after n) made act = Trial.carry ⟨w.tree, w.created + n, w.dropped + n⟩ s made act := by
  unfold carry
  rw [Search.found?_after, Search.dropped_after]
  cases s.found? <;> simp only [Nat.add_assoc]

/-- The second search is carried out where the first one found nothing. -/
theorem carry_orElse : w.carry (s <|> t) made act =
    match w.carry s made act with
    | (some b, w') => (some b, w')
    | (none, w') => w'.carry t made act := by
  rw [Search.orElse_eq]
  cases hs : s.found? with
  | some a =>
    rw [carry_of_found hs]
    exact carry_of_found hs
  | none =>
    rw [carry_of_none hs]
    exact carry_after

end Carry

/-- The growth below the instance `id`. -/
def grow (id : Nat) (t : Tree) (growth : Growth) : Tree × Nat :=
  (t.extend id growth (·.push (growth.entry t.size)), growth.taker id t.size)

theorem grow_capture (id : Nat) (t : Tree) (c : Capture) :
    grow id t (.capture c) = (⟨t.nodes.modify id (·.push (.capture c))⟩, id) :=
  congrArg (fun nodes => ((⟨nodes⟩ : Tree), id)) Array.append_empty

theorem grow_fork (id : Nat) (t : Tree) (f : Fork) :
    grow id t (.fork f) = (⟨t.nodes.modify id (·.push (.fork f))⟩, id) :=
  congrArg (fun nodes => ((⟨nodes⟩ : Tree), id)) Array.append_empty

/-- A new instance of a rule below `parent`, with its growth, before `parent` has it as a child.  Gives that instance and
the one that takes the phrase. -/
def hang (parent : Nat) (t : Tree) (x : RuleId × Growth) : Tree × (Nat × Nat) :=
  let fresh : Node := ⟨x.1, some parent, [x.2.entry (t.size + 1)], []⟩
  (⟨t.nodes ++ (fresh :: x.2.nodes t.size (t.size + 1)).toArray⟩, (t.size, t.size + x.2.depth))

/-- In new instances `ask` comes to what `inside` finds, carried out. -/
def Carries (ask : Trial → Nat → Option Nat × Trial) (inside : RuleId → Search Growth) : Prop :=
  ∀ (w : Trial) (rule : RuleId) (parent : Nat),
    ask (w.setUp rule parent) w.tree.size =
      (w.setUp rule parent).carry (inside rule) Growth.depth (grow w.tree.size)

section Modify

variable {α : Type} {xs ys : Array α} {x : α} {i : Nat} {f : α → α}

theorem modify_push : (xs.push x).modify xs.size f = xs.push (f x) := by
  refine Array.ext_getElem? fun j => ?_
  rw [Array.getElem?_modify, Array.getElem?_push, Array.getElem?_push]
  by_cases hj : xs.size = j
  · simp [hj]
  · rw [if_neg hj, if_neg (Ne.symm hj), if_neg (Ne.symm hj)]

theorem modify_append (h : i < xs.size) : (xs ++ ys).modify i f = xs.modify i f ++ ys := by
  refine Array.ext_getElem? fun j => ?_
  rw [Array.getElem?_modify, Array.getElem?_append, Array.getElem?_append, Array.size_modify, Array.getElem?_modify]
  by_cases hj : i = j
  · simp [hj, hj ▸ h]
  · simp [hj]

end Modify

section Carries

variable {ask : Trial → Nat → Option Nat × Trial} {inside : RuleId → Search Growth} {p : Phrase} {id parent i : Nat}
  {w : Trial}

/-- A new instance that grows is the new instance with its growth. -/
theorem grow_setUp (w : Trial) (rule : RuleId) (parent : Nat) (growth : Growth) :
    grow w.tree.size (w.setUp rule parent).tree growth =
      ((hang parent w.tree (rule, growth)).1, w.tree.size + growth.depth) := by
  have hsize : (w.setUp rule parent).tree.size = w.tree.size + 1 := Array.size_push _
  refine Prod.ext ?_ ?_
  · have hput : (w.setUp rule parent).tree.nodes.modify w.tree.size (·.push (growth.entry (w.tree.size + 1))) =
        w.tree.nodes.push ⟨rule, some parent, [growth.entry (w.tree.size + 1)], []⟩ := modify_push
    simp only [grow, hang, Tree.extend, hsize, hput]
    simp
  · simp only [grow, hsize, Growth.taker_eq]
    split <;> omega

theorem modify_hang {t : Tree} (hid : id < t.size) (rule : RuleId) (growth : Growth) (slot : Slot) (f : Node → Node) :
    (⟨(hang id t (rule, growth)).1.nodes.modify id f⟩ : Tree) = t.extend id (.child slot rule growth) f :=
  congrArg Tree.mk (modify_append hid)

variable (hin : Carries ask inside)

include hin

theorem tryRules_eq (rules : List RuleId) (w : Trial) :
    tryRules ask parent rules w = w.carry (firstOf inside rules) (·.2.depth + 1) (hang parent) := by
  induction rules generalizing w with
  | nil => rfl
  | cons rule rest ih =>
    rw [tryRules, firstOf, carry_orElse, carry_map, hin w rule parent]
    cases hfound : (inside rule).found? with
    | some growth =>
      have hkept : (inside rule).inInstance = inside rule := by simp only [Search.inInstance, hfound]
      have hcreated : w.created + 1 + (inside rule).dropped + growth.depth =
          w.created + (inside rule).dropped + (growth.depth + 1) := by omega
      rw [hkept, carry_of_found hfound, carry_of_found hfound, grow_setUp, created_setUp, dropped_setUp, hcreated]
      rfl
    | none =>
      -- the instance is given up, so the next rule starts from the same tree
      have hgiven : (inside rule).inInstance = ⟨(inside rule).dropped + 1, none⟩ := by
        simp only [Search.inInstance, hfound]
      have hcreated : w.created + 1 + (inside rule).dropped = w.created + ((inside rule).dropped + 1) := by omega
      have hback : ∀ created dropped, giveUp ⟨(w.setUp rule parent).tree, created, dropped⟩ w.tree.size =
          ⟨w.tree, created, dropped + 1⟩ := fun _ _ => giveUp_eq rfl
      rw [hgiven, carry_of_none hfound, carry_of_none rfl, created_setUp, dropped_setUp, hcreated]
      dsimp only
      rw [hback, ih, Nat.add_assoc]

theorem tryBelow_eq (rules : List RuleId) (slot : Slot) (put : Nat → Nat → Node → Node) (hid : id < w.tree.size) :
    tryBelow ask id rules put w = w.carry (firstOf inside rules) (·.2.depth + 1) fun t x =>
      (t.extend id (.child slot x.1 x.2) (put t.size (t.size + x.2.depth)), t.size + x.2.depth) := by
  rw [tryBelow, tryRules_eq hin]
  cases hfound : (firstOf inside rules).found? with
  | some x =>
    rw [carry_of_found hfound, carry_of_found hfound, ← modify_hang hid]
    rfl
  | none => rw [carry_of_none hfound, carry_of_none hfound]

/-- Beginning a part in place comes to its growth. -/
theorem beginPart_eq (hid : id < w.tree.size) (part : Part RuleId) :
    beginPart ask p id i w part = w.carry (growAt inside p i part) Growth.depth (grow id) := by
  cases part with
  | simple part =>
    cases hbegin : part.begin? i p with
    | none => simp [beginPart, growAt, hbegin]
    | some c => simp [beginPart, growAt, hbegin, put, grow_capture, Growth.depth]
  | alternatives a =>
    cases hbegin : a.begin? i p with
    | none => simp [beginPart, growAt, hbegin]
    | some f => simp [beginPart, growAt, hbegin, put, grow_fork, Growth.depth]
  | choice c =>
    rw [beginPart, growAt, tryBelow_eq hin _ (c.slot i) _ hid, carry_map]
    rfl

theorem beginFrom_eq (hid : id < w.tree.size) (parts : List (Part RuleId)) :
    beginFrom ask p id i parts w = w.carry (growFrom inside p i parts) Growth.depth (grow id) := by
  induction parts generalizing i w with
  | nil => rfl
  | cons part rest ih =>
    rw [beginFrom, growFrom, carry_orElse, beginPart_eq hin hid]
    cases hfound : (growAt inside p i part).found? with
    | some growth => rw [carry_of_found hfound]
    | none =>
      rw [carry_of_none hfound]
      by_cases ho : part.isOptional = true
      · simp only [if_pos ho]
        exact ih hid
      · simp only [if_neg ho]
        rfl

/-- Letting the latest entry go on in place comes to what resuming it finds. -/
theorem extend_eq (hid : id < w.tree.size) {parts : List (Part RuleId)} {part : Part RuleId} {last : Entry}
    (hfits : last.Fits parts) (hat : parts[last.part]? = some part) :
    extend ask p id w part last =
      match w.carry (part.resume inside p last) Change.made fun t change => t.apply id change with
      | (some taker, w') => (.absorbed taker, w')
      | (none, w') => (if last.blocks then .blocked else .rejected, w') := by
  cases last with
  | capture c =>
    obtain ⟨part, hat', -⟩ := hfits
    cases hat.symm.trans hat'
    cases hresume : part.resume? p c with
    | none => simp [extend, Part.resume, hresume, Entry.blocks]
    | some c' => simp [extend, Part.resume, hresume, put, Tree.apply, Change.made]
  | fork f =>
    obtain ⟨a, hat', -⟩ := hfits
    cases hat.symm.trans hat'
    cases hresume : a.resume? f.part p f with
    | none => cases hf : f.satisfied <;> simp [extend, Part.resume, hresume, Entry.blocks, hf]
    | some f' => simp [extend, Part.resume, hresume, put, Tree.apply, Change.made]
  | child x =>
    obtain ⟨c, hat', -⟩ := hfits
    cases hat.symm.trans hat'
    simp only [extend, extendChoice, Part.resume, RuleChoice.resume]
    split
    · simp [put, Tree.apply, Change.made]
    · split
      · rw [tryBelow_eq hin _ (c.slot x.part) _ hid, carry_map]
        cases hfound : (firstOf inside c.candidates).found? with
        | none => rw [carry_of_none hfound, carry_of_none hfound]; rfl
        | some found => rw [carry_of_found hfound, carry_of_found hfound]; rfl
      · simp [Entry.blocks]

end Carries

theorem offer_carries (g : Grammar) (p : Phrase) (levels : Nat) :
    Carries (offer g p levels) (instantiate g p levels) := by
  induction levels with
  | zero =>
    intro w rule parent
    rfl
  | succ levels ih =>
    intro w rule parent
    have hnode : (w.setUp rule parent).tree.node? w.tree.size = some (.fresh rule (some parent)) :=
      Array.getElem?_push_size
    have hlt : w.tree.size < (w.setUp rule parent).tree.size := Tree.lt_size_of_node? hnode
    rw [offer, hnode]
    exact beginFrom_eq ih hlt _

/-- An offer in place comes to what the search finds, carried out, if the latest entry is one that its part allows. -/
theorem offer_eq_of_fits (g : Grammar) (p : Phrase) {w : Trial} {id : Nat}
    (hfits : ∀ n last, w.tree.node? id = some n → n.last? = some last → last.Fits (g.parts n.rule)) :
    offer g p (g.size + 1) w id =
      w.carry (w.tree.offer g p id) Change.made fun t change => t.apply id change := by
  unfold offer Tree.offer
  cases hn : w.tree.node? id with
  | none => rfl
  | some n =>
    have hid : id < w.tree.size := Tree.lt_size_of_node? hn
    have hin : Carries (offer g p g.size) (g.sprout p) := offer_carries g p g.size
    -- for any trial, since what was tried before has changed the counts
    have honward : ∀ i (w' : Trial), id < w'.tree.size →
        beginFrom (offer g p g.size) p id i ((g.parts n.rule).drop i) w' =
          w'.carry (n.advance g p i) Change.made fun t change => t.apply id change := by
      intro i w' hid'
      rw [beginFrom_eq hin hid', Node.advance, carry_map]
      rfl
    simp only [Node.offer]
    cases hlast : n.last? with
    | none => exact honward 0 w hid
    | some last =>
      dsimp only
      split
      · exact honward _ w hid
      · cases hat : (g.parts n.rule)[last.part]? with
        | none => rfl
        | some part =>
          dsimp only
          rw [extend_eq hin hid (hfits n last hn hlast) hat, carry_orElse]
          cases hfound : (part.resume (g.sprout p) p last).found? with
          | some change => rw [carry_of_found hfound]
          | none =>
            rw [carry_of_none hfound]
            cases hblocks : last.blocks with
            | true => rfl
            | false => exact honward _ _ hid

/-- **An offer in place comes to what the search finds**, carried out. -/
theorem offer_eq (g : Grammar) (p : Phrase) {w : Trial} (hc : w.tree.Conforms g) (id : Nat) :
    offer g p (g.size + 1) w id =
      w.carry (w.tree.offer g p id) Change.made fun t change => t.apply id change :=
  offer_eq_of_fits g p fun n _ hn hlast => (hc.legal id n hn).fits _ (List.mem_of_mem_head? hlast)

/-- **An offer to the global rules in place comes to what the search finds**, carried out. -/
theorem adopt_eq (g : Grammar) (p : Phrase) {w : Trial} {id : Nat} (hid : id < w.tree.size) :
    adopt g p g.size w id =
      w.carry (Tree.offerGlobal g p) (·.2.depth + 1) fun t x => t.adopt g id x.1 x.2 := by
  rw [adopt, tryBelow_eq (offer_carries g p g.size) _ (g.global.slot 0) _ hid]
  rfl

/-- **A climb in place comes to what the search finds**, carried out. -/
theorem climb_eq (g : Grammar) (p : Phrase) {steps id : Nat} {w : Trial} (hc : w.tree.Conforms g) :
    climb g p steps w id = ((w.tree.climbWithin g p steps id).refused,
      w.carry ⟨(w.tree.climbWithin g p steps id).dropped, (w.tree.climbWithin g p steps id).taken?⟩ (·.2.made)
        fun t x => ((t.apply x.1 x.2).1, (x.1, (t.apply x.1 x.2).2))) := by
  induction steps generalizing w id with
  | zero => rfl
  | succ steps ih =>
    rw [climb, Tree.climbWithin]
    cases w.tree.parent? id with
    | none => rfl
    | some parent =>
      dsimp only
      rw [offer_eq g p hc]
      cases hfound : (w.tree.offer g p parent).found? with
      | some change =>
        rw [carry_of_found hfound]
        rfl
      | none =>
        rw [carry_of_none hfound]
        dsimp only
        rw [ih (by exact hc)]
        dsimp only
        rw [← carry_after]
        rfl

end Trial

end PhraseTree
