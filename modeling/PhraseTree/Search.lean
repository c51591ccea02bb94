/-!
# Ordered searches

A `Search` is the outcome of trying rules in order: what was found, and how many instances were set up and given up on
the way.  `a <|> b` looks into `b` only where `a` found nothing; what both gave up adds up.
-/

namespace PhraseTree

/-- What a search found, and how many instances it gave up. -/
structure Search (α : Type) where
  dropped : Nat
  found? : Option α

namespace Search

variable {α β : Type}

/-- Nothing was tried, and nothing found. -/
def fail : Search α := ⟨0, none⟩

/-- The outcome of a test that sets up no instance. -/
def ofOption (found? : Option α) : Search α := ⟨0, found?⟩

/-- The search with `n` instances given up before it. -/
def after (n : Nat) (s : Search α) : Search α := ⟨n + s.dropped, s.found?⟩

/-- The search with its finding changed. -/
def map (f : α → β) (s : Search α) : Search β := ⟨s.dropped, s.found?.map f⟩

/-- The first search, and the second only if the first found nothing. -/
def orElse (s : Search α) (other : Unit → Search α) : Search α :=
  match s.found? with
  | some _ => s
  | none => (other ()).after s.dropped

instance : OrElse (Search α) := ⟨orElse⟩

/-- The search inside a new instance: if it finds nothing, the instance itself is given up too. -/
def inInstance (s : Search α) : Search α :=
  match s.found? with
  | some _ => s
  | none => ⟨s.dropped + 1, none⟩

/-! ## what a search finds -/

@[simp] theorem found?_fail : (fail : Search α).found? = none := rfl

@[simp] theorem dropped_fail : (fail : Search α).dropped = 0 := rfl

@[simp] theorem found?_ofOption (o : Option α) : (ofOption o).found? = o := rfl

@[simp] theorem dropped_ofOption (o : Option α) : (ofOption o).dropped = 0 := rfl

@[simp] theorem found?_after (n : Nat) (s : Search α) : (s.after n).found? = s.found? := rfl

@[simp] theorem dropped_after (n : Nat) (s : Search α) : (s.after n).dropped = n + s.dropped := rfl

@[simp] theorem found?_map (f : α → β) (s : Search α) : (s.map f).found? = s.found?.map f := rfl

@[simp] theorem dropped_map (f : α → β) (s : Search α) : (s.map f).dropped = s.dropped := rfl

@[simp] theorem found?_inInstance (s : Search α) : s.inInstance.found? = s.found? := by
  unfold inInstance
  split <;> simp_all

theorem orElse_eq (s t : Search α) :
    (s <|> t) = if s.found?.isSome then s else t.after s.dropped := by
  show s.orElse (fun _ => t) = _
  unfold orElse
  cases s.found? <;> simp

@[simp] theorem found?_orElse (s t : Search α) : (s <|> t).found? = (s.found? <|> t.found?) := by
  rw [orElse_eq]
  cases h : s.found? <;> simp [h]

end Search

end PhraseTree
