import PhraseTree.Proofs.Grammar.Recursion
import PhraseTree.Proofs.Tree.Attempt

/-!
# Sequences of simple parts

A sequence of simple parts can be the definition of a rule, or a path of alternatives.  Instances follow the former and
branches the latter, each in a place of the program of its own.

* `Path.offered path captures p` — the captures of a path after it was offered `p`; what it refuses changes nothing;
* `Tree.offered g id t p` — the tree after its instance `id` was offered `p`;
* `Tree.holding t id captures` — the tree in which the entries of `id` are these captures;
* `Path.offer_holding`: an instance with the captures of a path does with a phrase what the path does;
* `Path.alike_in_rule`: so both have the same captures, whatever phrases they are offered.
-/

namespace PhraseTree

variable {g : Grammar} {p : Phrase} {path : Path} {captures : List Capture} {c : Capture} {rule : RuleId}
  {parent? : Option NodeId} {t : Tree} {id : NodeId}

/-! ### Offers -/

/-- The captures of a path after it was offered `p`. -/
def Path.offered (path : Path) (captures : List Capture) (p : Phrase) : List Capture :=
  match path.take? p captures.head? with
  | some c => Branch.record captures c
  | none => captures

/-- The tree after its instance `id` was offered `p`. -/
def Tree.offered (g : Grammar) (id : NodeId) (t : Tree) (p : Phrase) : Tree :=
  match (t.offer g p id).found? with
  | some change => (t.apply id change).1
  | none => t

/-- The tree in which the entries of `id` are these captures. -/
def Tree.holding (t : Tree) (id : NodeId) (captures : List Capture) : Tree :=
  ⟨t.nodes.modify id fun n => { n with entries := captures.map .capture }⟩

/-- How an instance records a capture: in place of the latest one of the same part, or behind the others. -/
def Change.recording (captures : List Capture) (c : Capture) : Change :=
  if captures.head?.any (·.part == c.part) then .replace (.capture c) else .grow (.capture c)

/-- Nothing was taken yet, or what was taken is progress along the path. -/
def Path.Follows (path : Path) (captures : List Capture) : Prop := captures = [] ∨ path.Progress captures

namespace Path

theorem Follows.offered (h : path.Follows captures) (p : Phrase) : path.Follows (path.offered captures p) := by
  unfold Path.offered
  split
  · next c hc =>
    rcases h with rfl | h
    · exact Or.inr (progress_begin hc)
    · exact Or.inr (h.record hc)
  · exact h

theorem follows_offered (path : Path) (ps : List Phrase) : path.Follows (ps.foldl path.offered []) :=
  List.foldlRecOn ps path.offered (Or.inl rfl) fun _ h p _ => h.offered p

/-! ### Beginning -/

theorem growFrom_simple (inside : RuleId → Search Growth) (p : Phrase) (i : Nat) (path : Path) :
    growFrom inside p i (path.map .simple) = .ofOption ((begin? p i path).map .capture) := by
  induction path generalizing i with
  | nil => rfl
  | cons part rest ih =>
    rw [List.map_cons, growFrom, growAt, begin?]
    cases part.begin? i p with
    | some c => rfl
    | none =>
      rw [Option.map_none, Search.none_orElse, Part.isOptional]
      cases part.isOptional with
      | true => exact ih (i + 1)
      | false => rfl

theorem advance_simple {n : Node} (hparts : g.parts n.rule = path.map .simple) (i : Nat) :
    n.advance g p i = .ofOption ((begin? p i (path.drop i)).map fun c => .grow (.capture c)) := by
  rw [Node.advance, hparts, ← List.map_drop, growFrom_simple]
  cases begin? p i (path.drop i) <;> rfl

/-! ### Taking a phrase -/

theorem node?_holding (hnode : t.node? id = some (.fresh rule parent?)) :
    (t.holding id captures).node? id = some ⟨rule, parent?, captures.map .capture, []⟩ := by
  rw [Tree.holding, Tree.node?_modify, if_pos rfl, hnode]
  rfl

theorem holding_nil (hnode : t.node? id = some (.fresh rule parent?)) : t.holding id [] = t := by
  refine congrArg Tree.mk (Array.ext_getElem? fun j => ?_)
  rw [Array.getElem?_modify]
  split
  · next h =>
    subst h
    rw [show t.nodes[id]? = some _ from hnode]
    rfl
  · rfl

/-- **An instance with the captures of a path takes what the path takes**, and records it. -/
theorem offer_captures {n : Node} (hparts : g.parts n.rule = path.map .simple)
    (hentries : n.entries = captures.map .capture) (hfollows : path.Follows captures) (p : Phrase) :
    n.offer g p = .ofOption ((path.take? p captures.head?).map (Change.recording captures)) := by
  unfold Node.offer Node.last?
  rw [hentries]
  cases captures with
  | nil =>
    have hnone : ∀ c, Change.recording [] c = .grow (.capture c) := fun c => rfl
    show n.advance g p 0 = _
    rw [advance_simple hparts, List.drop_zero]
    simp only [List.head?_nil, take?, funext hnone]
  | cons last earlier =>
    have hprogress := hfollows.resolve_left (List.cons_ne_nil last earlier)
    obtain ⟨part, hat, -⟩ := hprogress.head
    have hnext : path.next last.part = last.part + 1 := next_of_lt (List.getElem?_eq_some_iff.mp hat).1
    -- what begins is of a later part, so it stands behind the latest capture
    have honward : n.advance g p (last.part + 1) =
        .ofOption ((begin? p (path.next last.part) (path.drop (path.next last.part))).map
          (Change.recording (last :: earlier))) := by
      rw [hnext, advance_simple hparts]
      refine congrArg Search.ofOption (Option.map_congr fun c hc => ?_)
      have hlater := (begin?_spec hc rfl).1
      have hne : last.part ≠ c.part := by omega
      simp [Change.recording, hne]
    have hparts? : (g.parts n.rule)[last.part]? = some (.simple part) := by
      rw [hparts, List.getElem?_map, hat]
      rfl
    simp only [List.map_cons, List.head?_cons, Entry.finished, Entry.part, hparts?, take?, hat, Part.resume,
      Entry.blocks]
    split
    · exact honward
    · cases hresume : part.resume? p last with
      | some c =>
        have hsame := SimplePart.resume?_part hresume
        have hrecording : Change.recording (last :: earlier) c = .replace (.capture c) := by
          simp [Change.recording, hsame]
        rw [Option.map_some, Option.map_some, hrecording]
        rfl
      | none =>
        rw [Option.map_none, Search.none_orElse]
        exact honward

theorem apply_replace_capture (t : Tree) (id : NodeId) (last : Capture) (earlier : List Capture) (c : Capture) :
    (t.holding id (last :: earlier)).apply id (.replace (.capture c)) = (t.holding id (c :: earlier), id) := by
  rw [Tree.apply, Tree.holding, Tree.modify_modify]
  rfl

theorem apply_grow_capture (t : Tree) (id : NodeId) (captures : List Capture) (c : Capture) :
    (t.holding id captures).apply id (.grow (.capture c)) = (t.holding id (c :: captures), id) := by
  refine (Trial.grow_capture id (t.holding id captures) c).trans ?_
  rw [Tree.holding, Tree.modify_modify]
  rfl

theorem apply_recording (t : Tree) (id : NodeId) (captures : List Capture) (c : Capture) :
    (t.holding id captures).apply id (Change.recording captures c) =
      (t.holding id (Branch.record captures c), id) := by
  unfold Change.recording
  cases captures with
  | nil => exact apply_grow_capture t id [] c
  | cons last earlier =>
    by_cases hsame : last.part = c.part
    · simp [hsame, Branch.record, apply_replace_capture]
    · simp [hsame, Branch.record, apply_grow_capture]

/-! ### Any number of phrases -/

/-- **An instance with the captures of a path does with a phrase what the path does**, be it taken or refused. -/
theorem offered_holding (hparts : g.parts rule = path.map .simple)
    (hnode : t.node? id = some (.fresh rule parent?)) (hfollows : path.Follows captures) (p : Phrase) :
    (t.holding id captures).offer g p id =
        .ofOption ((path.take? p captures.head?).map (Change.recording captures)) ∧
      (t.holding id captures).offered g id p = t.holding id (path.offered captures p) := by
  have hoffer : (t.holding id captures).offer g p id =
      .ofOption ((path.take? p captures.head?).map (Change.recording captures)) := by
    rw [Tree.offer, node?_holding hnode]
    exact offer_captures hparts rfl hfollows p
  refine ⟨hoffer, ?_⟩
  unfold Tree.offered Path.offered
  rw [hoffer]
  cases path.take? p captures.head? with
  | none => rfl
  | some c => exact congrArg Prod.fst (apply_recording t id captures c)

/-- **Instance and path stay alike**, whatever phrases they are offered. -/
theorem foldl_offered (hparts : g.parts rule = path.map .simple) (hnode : t.node? id = some (.fresh rule parent?))
    (ps : List Phrase) : ps.foldl (Tree.offered g id) t = t.holding id (ps.foldl path.offered []) := by
  induction ps using List.reverseRecOn with
  | nil => exact (holding_nil hnode).symm
  | append_singleton ps p ih =>
    rw [List.foldl_append, List.foldl_append, ih]
    exact (offered_holding hparts hnode (path.follows_offered ps) p).2

/-- The offer in place: the instance itself takes what the path takes, and no other is set up. -/
theorem offer_in_place (hparts : g.parts rule = path.map .simple) (hnode : t.node? id = some (.fresh rule parent?))
    (hfollows : path.Follows captures) (p : Phrase) (created dropped : Nat) :
    Trial.offer g p (g.size + 1) ⟨t.holding id captures, created, dropped⟩ id =
      (if (path.take? p captures.head?).isSome then some id else none,
        ⟨(t.holding id captures).offered g id p, created, dropped⟩) := by
  obtain ⟨hoffer, hoffered⟩ := offered_holding hparts hnode hfollows p
  have hfits : ∀ n last, (t.holding id captures).node? id = some n → n.last? = some last →
      last.Fits (g.parts n.rule) := by
    intro n last hn hlast
    rw [node?_holding hnode] at hn
    cases hn
    obtain ⟨c, hc, rfl⟩ := List.mem_map.mp (List.mem_of_mem_head? hlast)
    have hprogress := hfollows.resolve_left (List.ne_nil_of_mem hc)
    obtain ⟨part, hat, hholds⟩ := hprogress.holds c hc
    refine ⟨part, ?_, hholds⟩
    rw [hparts, List.getElem?_map, hat]
    rfl
  rw [Trial.offer_eq_of_fits g p hfits, hoffer, hoffered]
  unfold Path.offered
  cases path.take? p captures.head? with
  | none => rfl
  | some c =>
    have hmade : (Change.recording captures c).made = 0 := by
      unfold Change.recording
      split <;> rfl
    rw [Option.map_some, Trial.carry_ofOption_some, apply_recording, hmade]
    rfl

/-! ### Grammars of one rule -/

theorem sound_alone (path : Path) :
    Sound [⟨topLevelName, path.map .simple⟩] { key := "global", candidates := [], optional := true } {} := by
  have hnext : ∀ a, Leading.next [⟨topLevelName, path.map .simple⟩] a = [] := by
    intro a
    refine List.eq_nil_iff_forall_not_mem.mpr fun b hb => ?_
    obtain ⟨rule, i, c, hrule, hat, -⟩ := Leading.mem_next_iff.mp hb
    obtain rfl := List.mem_singleton.mp (List.mem_of_getElem? hrule)
    obtain ⟨part, -, hpart⟩ := List.mem_map.mp (List.mem_of_getElem? hat)
    cases hpart
  constructor
  · rfl
  · exact List.nodup_singleton _
  · intro rule hrule part hpart id hid
    obtain rfl := List.mem_singleton.mp hrule
    obtain ⟨part, -, rfl⟩ := List.mem_map.mp hpart
    cases hid
  · intro id hid
    cases hid
  · decide
  · refine (Leading.cycle?_eq_none_iff fun a b hb => ?_).mpr fun a hself => ?_
    · rw [hnext] at hb
      cases hb
    · obtain ⟨b, hb, -⟩ := Relation.TransGen.head'_iff.mp hself
      rw [hnext] at hb
      cases hb

/-- The grammar whose only rule has the parts of the path. -/
def alone (path : Path) : Grammar := ⟨_, _, _, path.sound_alone⟩

/-- **Simple parts take phrases in the same way in a rule and in a path.**  Any sequence of them is the definition of some
rule.  Where a new instance of such a rule and the path are offered the same phrases, each is taken by both or by neither,
and after each of them the instance has the captures of the path for its entries, whole.  All other instances stay as they
are.  The instance takes the phrases itself, and none is set up for them, also where the offer is made in place. -/
theorem alike_in_rule (path : Path) :
    (∃ g : Grammar, g.parts Grammar.topLevel = path.map .simple) ∧
      ∀ (g : Grammar) (rule : RuleId) (t : Tree) (id : NodeId) (parent? : Option NodeId),
        g.parts rule = path.map .simple → t.node? id = some (.fresh rule parent?) → ∀ ps : List Phrase,
          let captures := ps.foldl path.offered []
          let after := ps.foldl (Tree.offered g id) t
          after.node? id = some ⟨rule, parent?, captures.map .capture, []⟩ ∧ (∀ j ≠ id, after.node? j = t.node? j) ∧
            ∀ p, (after.offer g p id).found?.isSome = (path.take? p captures.head?).isSome ∧
              ∀ created dropped, Trial.offer g p (g.size + 1) ⟨after, created, dropped⟩ id =
                (if (path.take? p captures.head?).isSome then some id else none,
                  ⟨after.offered g id p, created, dropped⟩) := by
  refine ⟨⟨path.alone, rfl⟩, fun g rule t id parent? hparts hnode ps => ?_⟩
  have hfollows := path.follows_offered ps
  dsimp only
  rw [foldl_offered hparts hnode ps]
  refine ⟨node?_holding hnode, fun j hj => ?_, fun p => ⟨?_, ?_⟩⟩
  · rw [Tree.holding, Tree.node?_modify, if_neg (Ne.symm hj)]
  · rw [(offered_holding hparts hnode hfollows p).1, Search.found?_ofOption, Option.isSome_map]
  · exact offer_in_place hparts hnode hfollows p

end Path

namespace Signed

/-- Signs, each at most once, and a number. -/
def amount : Path := [.modifiers { phrases := ["+", "-"], optional := true }, .number "value"]

def plus : Phrase := .single .chars .start '+'

def minus : Phrase := .single .chars (Cursor.start.advance '+') '-'

def five : Phrase := .single .number (Cursor.start.advanceOver ['+', '-']) '5'

/-- The second plus is refused, in the rule as on the path; both signs and the number are recorded in both. -/
theorem alike_signed :
    (([plus, plus, minus, five].foldl (Tree.offered amount.alone 0) .root).node? 0).map (·.entries.map Entry.values) =
        some [["5"], ["+", "-"]] ∧
      (([plus].foldl (Tree.offered amount.alone 0) .root).offer amount.alone plus 0).found?.isSome = false := by
  have hparts : amount.alone.parts Grammar.topLevel = amount.map .simple := rfl
  have halike := amount.alike_in_rule.2 amount.alone Grammar.topLevel .root 0 none hparts rfl
  constructor
  · rw [(halike [plus, plus, minus, five]).1]
    decide
  · rw [((halike [plus]).2.2 plus).1]
    decide

end Signed

end PhraseTree
