import PhraseTree.Proofs.Grammar.Building
import PhraseTree.Proofs.Grammar.Expected
import PhraseTree.Proofs.Run.Arrangement

/-!
# What messages expect and what instances try

A message lists the parts that an instance could have begun instead of a phrase that was refused.  The instance itself
goes through its parts in another place of the program, and does not always try those that are listed.

* `Node.offerTried g p n` — an offer that also lists the parts it tries to begin, in order; it is the offer itself
  (`Node.offerTried_fst`);
* `Node.mayBegin g n` — the parts after the latest entry, up to and including the first required one, or none behind a
  fork that blocks.  Where a phrase is refused these are tried (`Node.Legal.tried_of_refused`);
* `Node.Legal.listed_place`: the parts that a message about an instance lists;
* `Run.Passes.tried_eq_listed_iff`: when both are the same parts.
-/

namespace PhraseTree

variable {g : Grammar} {p : Phrase} {n : Node}

/-! ### Parts that are tried -/

/-- `growFrom` with the parts that are tried, each with its place. -/
def growFromTried (inside : RuleId → Search Growth) (p : Phrase) :
    Nat → List (Part RuleId) → Search Growth × List (Part RuleId × Nat)
  | _, [] => (.fail, [])
  | i, part :: rest =>
    let here := growAt inside p i part
    if here.found?.isSome then (here, [(part, i)])
    else
      let further := if part.isOptional then growFromTried inside p (i + 1) rest else (.fail, [])
      (further.1.after here.dropped, (part, i) :: further.2)

section Tried

variable {inside : RuleId → Search Growth} {i : Nat} {parts : List (Part RuleId)}

theorem growFromTried_fst (inside : RuleId → Search Growth) (p : Phrase) (i : Nat) (parts : List (Part RuleId)) :
    (growFromTried inside p i parts).1 = growFrom inside p i parts := by
  induction parts generalizing i with
  | nil => rfl
  | cons part rest ih =>
    rw [growFromTried, growFrom, Search.orElse_eq]
    dsimp only
    split
    · rfl
    · dsimp only
      split
      · rw [ih]
      · rfl

theorem growFromTried_snd (h : (growFrom inside p i parts).found? = none) :
    (growFromTried inside p i parts).2 = uptoRequired (·.1.isOptional) (parts.zipIdx i) := by
  induction parts generalizing i with
  | nil => rfl
  | cons part rest ih =>
    rw [growFrom] at h
    obtain ⟨hhere, hrest⟩ := Search.orElse_eq_none.mp h
    rw [growFromTried, List.zipIdx_cons, uptoRequired]
    dsimp only
    rw [if_neg (by simp [hhere])]
    split
    · next ho =>
      rw [if_pos ho] at hrest
      rw [ih hrest]
    · rfl

end Tried

namespace Node

/-- `Node.advance` with the parts that are tried. -/
def advanceTried (g : Grammar) (p : Phrase) (n : Node) (i : Nat) : Search Change × List (Part RuleId × Nat) :=
  (growFromTried (g.sprout p) p i ((g.parts n.rule).drop i)).map (Search.map .grow) id

/-- **`Node.offer` with the parts that the instance tries to begin**, in order. -/
def offerTried (g : Grammar) (p : Phrase) (n : Node) : Search Change × List (Part RuleId × Nat) :=
  match n.last? with
  | none => n.advanceTried g p 0
  | some last =>
    if last.finished then n.advanceTried g p (last.part + 1)
    else
      match (g.parts n.rule)[last.part]? with
      | none => (.fail, [])
      | some part =>
        let resumed := part.resume (g.sprout p) p last
        if resumed.found?.isSome then (resumed, [])
        else
          let further := if last.blocks then (.fail, []) else n.advanceTried g p (last.part + 1)
          (further.1.after resumed.dropped, further.2)

/-- **The parts that may begin next**: those after the latest entry, up to and including the first required one, but none
behind a fork that blocks. -/
def mayBegin (g : Grammar) (n : Node) : List (Part RuleId × Nat) :=
  if n.last?.any Entry.blocks then []
  else uptoRequired (·.1.isOptional) (((g.parts n.rule).drop n.nextPart).zipIdx n.nextPart)

theorem advanceTried_fst (g : Grammar) (p : Phrase) (n : Node) (i : Nat) :
    (n.advanceTried g p i).1 = n.advance g p i := by
  unfold advanceTried advance
  rw [Prod.map_fst, growFromTried_fst]

theorem advanceTried_snd {i : Nat} (h : (n.advance g p i).found? = none) :
    (n.advanceTried g p i).2 = uptoRequired (·.1.isOptional) (((g.parts n.rule).drop i).zipIdx i) :=
  growFromTried_snd (Option.map_eq_none_iff.mp h)

theorem offerTried_fst (g : Grammar) (p : Phrase) (n : Node) : (n.offerTried g p).1 = n.offer g p := by
  unfold offerTried offer
  cases n.last? with
  | none => exact n.advanceTried_fst g p 0
  | some last =>
    dsimp only
    split
    · exact n.advanceTried_fst g p _
    · cases (g.parts n.rule)[last.part]? with
      | none => rfl
      | some part =>
        dsimp only
        rw [Search.orElse_eq]
        split
        · rfl
        · dsimp only
          split
          · rfl
          · rw [advanceTried_fst]

/-- **An instance that refuses a phrase has tried all parts that may begin next.** -/
theorem Legal.tried_of_refused (hl : n.Legal g) (h : (n.offer g p).found? = none) :
    (n.offerTried g p).2 = n.mayBegin g := by
  unfold offer at h
  unfold offerTried mayBegin nextPart
  cases hlast : n.last? with
  | none =>
    rw [hlast] at h
    exact advanceTried_snd h
  | some last =>
    rw [hlast] at h
    obtain ⟨part, hat⟩ : ∃ part, (g.parts n.rule)[last.part]? = some part :=
      ⟨_, List.getElem?_eq_getElem (hl.fits last (List.mem_of_mem_head? hlast)).lt_length⟩
    dsimp only [Option.any_some] at h ⊢
    split
    · next hfin =>
      -- what is finished is no fork
      have hblocks : last.blocks = false := by
        cases last with
        | capture | child => rfl
        | fork => cases hfin
      rw [if_pos hfin] at h
      rw [if_neg (by simp [hblocks])]
      exact advanceTried_snd h
    · next hfin =>
      rw [if_neg hfin, hat] at h
      obtain ⟨hresumed, hfurther⟩ := Search.orElse_eq_none.mp h
      rw [hat]
      dsimp only
      rw [if_neg (by simp [hresumed])]
      dsimp only
      split
      · rfl
      · next hblocks =>
        rw [if_neg hblocks] at hfurther
        exact advanceTried_snd hfurther

end Node

/-! ### Parts that are listed -/

theorem Grammar.find?_name {rule : RuleId} (h : rule < g.size) : g.find? (g.name rule) = some rule := by
  have hat : g.rules[rule]? = some g.rules[rule] := List.getElem?_eq_getElem h
  rw [find?_eq_some_iff, name, hat]
  rfl

/-- The place that an instance refers to is that of its latest entry, or that of its first part. -/
theorem Node.Legal.listed_place (hl : n.Legal g) (hfew : (g.parts n.rule).length < UInt64.size) :
    g.listed n.rule (n.place g) =
      uptoRequired (·.1.isOptional) (((g.parts n.rule).drop ((n.last?.map Entry.part).getD 0 + 1)).zipIdx
        ((n.last?.map Entry.part).getD 0 + 1)) := by
  have hlt : (n.last?.map Entry.part).getD 0 + 1 < UInt64.size := by
    cases hlast : n.last? with
    | none => decide
    | some e =>
      have hpart := (hl.fits e (List.mem_of_mem_head? hlast)).lt_length
      show e.part + 1 < UInt64.size
      omega
  have hpart : (n.place g).part.toNat = (n.last?.map Entry.part).getD 0 :=
    UInt64.toNat_ofNat_of_lt (Nat.lt_of_succ_lt hlt)
  rw [Grammar.listed, Place.toNat_next, hpart, if_pos hlt]

/-- **When the listed parts are those that may begin next**: there is a latest entry and it does not block, or nothing
follows anyway. -/
theorem Node.Legal.mayBegin_eq_listed_iff (hl : n.Legal g) (hfew : (g.parts n.rule).length < UInt64.size) :
    n.mayBegin g = g.listed n.rule (n.place g) ↔
      (∃ e, n.last? = some e ∧ e.blocks = false) ∨ (g.parts n.rule).length ≤ n.nextPart := by
  rw [hl.listed_place hfew]
  unfold Node.mayBegin Node.nextPart
  cases n.last? with
  | none =>
    simp only [Option.any_none, Option.map_none, Option.getD_none, reduceCtorEq, false_and, exists_false, false_or]
    constructor
    · intro h
      -- the first part is tried first, but it is not listed
      have hhead := congrArg List.head? h
      simp only [if_false, head?_uptoRequired] at hhead
      cases hparts : g.parts n.rule with
      | nil => simp
      | cons part rest =>
        rw [hparts] at hhead
        cases rest <;> simp at hhead
    · intro h
      have hparts : g.parts n.rule = [] := List.eq_nil_of_length_eq_zero (Nat.le_zero.mp h)
      simp [hparts]
  | some e =>
    cases hblocks : e.blocks with
    | false => simp [hblocks]
    | true =>
      simp only [Option.any_some, hblocks, if_true, Option.map_some, Option.getD_some, Option.some.injEq,
        exists_eq_left', Bool.true_eq_false, false_or]
      rw [eq_comm, uptoRequired_eq_nil, List.zipIdx_eq_nil_iff, List.drop_eq_nil_iff]

/-! ### Instances of a run -/

namespace Run

variable {s : Settings} {text : List Char} {r : Run} {id : NodeId}

theorem Passes.topLevel (h : Passes g s text r) : ∃ n, r.tree.node? 0 = some n ∧ n.rule = Grammar.topLevel := by
  have hkept : r.tree.Arranged r.active ∧ ∃ n, r.tree.node? 0 = some n ∧ n.rule = Grammar.topLevel := by
    refine h.tree_rule (P := fun t active => t.Arranged active ∧ ∃ n, t.node? 0 = some n ∧ n.rule = Grammar.topLevel)
      ⟨Tree.root_arranged, _, rfl, rfl⟩ ?_ ?_
    · rintro t active p t' taker ⟨harranged, n, hn, hrule⟩ htakes
      obtain ⟨_, _, _, _, _, hgraft⟩ := htakes.graft harranged.active_lt
      obtain ⟨n', hn', hrule', -⟩ := hgraft.keeps 0 n hn
      exact ⟨harranged.takes htakes, n', hn', hrule'.trans hrule⟩
    · rintro t active ⟨harranged, n, hn, hrule⟩
      obtain ⟨m, hm⟩ := Tree.node?_of_lt harranged.active_lt
      obtain ⟨n', hn', hrule', -⟩ := (Tree.graft_settle hm).keeps 0 n hn
      exact ⟨harranged.settle, n', hn', hrule'.trans hrule⟩
  exact hkept.2

theorem Passes.rule_lt (h : Passes g s text r) (hn : r.tree.node? id = some n) : n.rule < g.size := by
  cases hlast : n.last? with
  | none =>
    have hid : ¬ 0 < id := fun hpos => h.tree_arranged.filled id n hn hpos (List.head?_eq_none_iff.mp hlast)
    obtain ⟨m, hm, hrule⟩ := h.topLevel
    rw [Nat.eq_zero_of_not_pos hid] at hn
    cases hn.symm.trans hm
    rw [hrule]
    exact g.size_pos
  | some e =>
    have hpart := ((h.tree_conforms.1.legal id n hn).fits e (List.mem_of_mem_head? hlast)).lt_length
    by_contra hle
    rw [Grammar.parts_of_size_le (Nat.le_of_not_lt hle)] at hpart
    exact Nat.not_lt_zero _ hpart

/-- **What a message says an instance could have begun, and what it tries.**  In every state of every run, an instance
that refuses a phrase has tried the parts behind its latest entry, up to and including the first required one, or none if
that entry is a fork that blocks.  A message about the instance describes the parts behind its latest entry in any case;
and where there is none, as there may be in the top level, it leaves out the first part.  So both are the same parts
exactly if there is a latest entry and it does not block, or nothing follows. -/
theorem Passes.tried_eq_listed_iff (h : Passes g s text r) (hn : r.tree.node? id = some n)
    (hfew : (g.parts n.rule).length < UInt64.size) (hrefused : (r.tree.offer g p id).found? = none) :
    (n.offerTried g p).1 = r.tree.offer g p id ∧ (n.offerTried g p).2 = n.mayBegin g ∧
      (g.expected (r.tree.place g id) =
        match g.listed n.rule (r.tree.place g id) with
        | [] => "nothing (rule should be complete)"
        | parts => ", then ".intercalate (parts.map fun x => g.describe x.1)) ∧
      g.listed n.rule (r.tree.place g id) =
        uptoRequired (·.1.isOptional) (((g.parts n.rule).drop ((n.last?.map Entry.part).getD 0 + 1)).zipIdx
          ((n.last?.map Entry.part).getD 0 + 1)) ∧
      ((n.offerTried g p).2 = g.listed n.rule (r.tree.place g id) ↔
        (∃ e, n.last? = some e ∧ e.blocks = false) ∨ (g.parts n.rule).length ≤ n.nextPart) ∧
      (n.last? = none → id = 0) := by
  have hl : n.Legal g := h.tree_conforms.1.legal id n hn
  have hoffer : r.tree.offer g p id = n.offer g p := by rw [Tree.offer, hn]
  have hplace : r.tree.place g id = n.place g := by rw [Tree.place, hn]
  rw [hoffer] at hrefused ⊢
  rw [hplace]
  have htried := hl.tried_of_refused hrefused
  refine ⟨n.offerTried_fst g p, htried, Grammar.expected_eq (Grammar.find?_name (h.rule_lt hn)), hl.listed_place hfew,
    ?_, fun hlast => ?_⟩
  · rw [htried]
    exact hl.mayBegin_eq_listed_iff hfew
  · by_contra hid
    exact h.tree_arranged.filled id n hn (Nat.pos_of_ne_zero hid) (List.head?_eq_none_iff.mp hlast)

end Run

namespace Lone

/-- The text is one letter. -/
def rules : List (Rule RuleId) := [⟨topLevelName, [.simple (.keyword "a")]⟩]

theorem sound_rules : Sound rules { key := "global", candidates := [], optional := true } {} := by
  constructor <;> decide +kernel

def grammar : Grammar := ⟨rules, _, _, sound_rules⟩

/-- Another letter. -/
def other : Phrase := .single .word .start 'b'

/-- Before anything was taken, another letter is refused by the only part.  That part is tried, but a message says that
nothing was expected. -/
theorem misled :
    Run.Passes grammar {} ['b'] {} ∧ (({} : Run).tree.offer grammar other 0).found? = none ∧
      ((Node.fresh Grammar.topLevel none).offerTried grammar other).2 = [(.simple (.keyword "a"), 0)] ∧
      grammar.listed Grammar.topLevel (({} : Run).tree.place grammar 0) = [] ∧
      grammar.expected (({} : Run).tree.place grammar 0) = "nothing (rule should be complete)" ∧
      (grammar.read? {} ['b']).map (fun r => r.reports.reverse.map (·.message grammar)) = some
        ["Unexpected phrase encountered for rule \"TopLevel\". Expected: nothing (rule should be complete), received: \"b\"",
          "Unfinished rule \"TopLevel\". Expected: nothing (rule should be complete), received: \"b\""] :=
  ⟨.reached .start, by decide +kernel, by decide +kernel, by decide +kernel, by decide +kernel, by decide +kernel⟩

end Lone

namespace Listing

/-- The run over the name of an item. -/
def itemized : Run := (Run.readAll (grammar true) {} 2 {} ['a', ' ']).get (by decide +kernel)

/-- A bracket, where the value of the item should be. -/
def misplaced : Phrase := .single .chars (Cursor.start.advanceOver ['a', ' ']) ')'

/-- Behind the name of an item the value is tried, and the message says so. -/
theorem foretold_listing : ∃ n, itemized.tree.node? 1 = some n ∧
    (itemized.tree.offer (grammar true) misplaced 1).found? = none ∧
      (n.offerTried (grammar true) misplaced).2 =
        (grammar true).listed n.rule (itemized.tree.place (grammar true) 1) ∧
      (n.offerTried (grammar true) misplaced).2 = [(.alternatives ⟨[[.number "value"], [.text (quoted true)]], false⟩, 1)] ∧
      (grammar true).expected (itemized.tree.place (grammar true) 1) =
        "either of the following: 'value' number , '<' ... '>'" := by
  have hread : Run.readAll (grammar true) {} 2 {} ['a', ' '] = some itemized := (Option.some_get _).symm
  have hstart : Run.Reached (grammar true) {} ['a', ' '] {} [] (['a', ' '] ++ []) := .start
  obtain ⟨taken, hreached⟩ := hstart.readAll hread
  have hrefused : (itemized.tree.offer (grammar true) misplaced 1).found? = none := by decide +kernel
  have hlast : (itemized.tree.node? 1).any (fun n => n.last?.any fun e => !e.blocks) = true := by decide +kernel
  have hfew : (itemized.tree.node? 1).any (fun n => ((grammar true).parts n.rule).length < UInt64.size) = true := by
    decide +kernel
  have htried : (itemized.tree.node? 1).map (fun n => (n.offerTried (grammar true) misplaced).2) =
      some [(.alternatives ⟨[[.number "value"], [.text (quoted true)]], false⟩, 1)] := by decide +kernel
  obtain ⟨n, hn, htried⟩ := Option.map_eq_some_iff.mp htried
  rw [hn, Option.any_some, Option.any_eq_true] at hlast
  rw [hn, Option.any_some, decide_eq_true_eq] at hfew
  obtain ⟨e, he, hblocks⟩ := hlast
  obtain ⟨-, -, -, -, hiff, -⟩ := Run.Passes.tried_eq_listed_iff (.reached hreached) hn hfew hrefused
  exact ⟨n, hn, hrefused, hiff.mpr (Or.inl ⟨e, he, by simpa using hblocks⟩), htried, by decide +kernel⟩

end Listing

end PhraseTree
