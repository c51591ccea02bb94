import PhraseTree.Proofs.Run.Reporting
import PhraseTree.Proofs.Tree.Relabelling
import PhraseTree.Session

/-!
# The order of the rules does not matter

Two grammars that are the same but for the numbers of their rules read a text in lockstep: at every character their runs
are the same but for these numbers (`Grammar.Relabels.lockstep`).  Reports and places name rules, so the runs report
alike and count alike.

`Draft.rule_order_immaterial`: declaring the rules of a draft in another order changes neither whether it is built nor
what a text is read to, as long as rules go by their names (`Outcome.named`).
-/

namespace PhraseTree

/-! ### Runs under other rule numbers -/

/-- The run with the rules of its instances numbered by `f`. -/
def Run.relabelled (f : RuleId → RuleId) (r : Run) : Run := { r with tree := r.tree.relabelled f }

namespace Run

variable {f : RuleId → RuleId} {r : Run}

/-- Only the top level is there, and it keeps its number. -/
theorem relabelled_start (h : f Grammar.topLevel = Grammar.topLevel) : ({} : Run).relabelled f = {} := by
  have hroot : Tree.root.relabelled f = Tree.root := by
    simp only [Tree.relabelled, Tree.root, List.map_toArray, List.map_cons, List.map_nil, Node.relabelled, Node.fresh, h]
  show Run.mk (Tree.root.relabelled f) 0 none .start [] {} = Run.mk Tree.root 0 none .start [] {}
  rw [hroot]

@[simp] theorem inText_relabelled : (r.relabelled f).inText = r.inText := Tree.inText_relabelled _ _

theorem change_relabelled (id : NodeId) (c : Change) :
    (r.relabelled f).change id (c.relabelled f) = (r.change id c).relabelled f := by
  have happly := r.tree.relabelled_apply (f := f) id c
  simp only [change, relabelled, happly]

theorem skip_relabelled (ch : Char) : (r.relabelled f).skip ch = (r.skip ch).relabelled f := by
  unfold skip
  split <;> rfl

theorem giveBack_relabelled :
    (r.relabelled f).giveBack = (r.giveBack.1.relabelled f, r.giveBack.2) := by
  have hagain : (r.relabelled f).tree.toReread? r.active = r.tree.toReread? r.active :=
    Tree.toReread?_relabelled _ _
  have hsettle : (r.relabelled f).tree.settle r.active = (r.tree.settle r.active).relabelled f :=
    (r.tree.relabelled_settle r.active).symm
  cases hback : r.tree.toReread? r.active with
  | none => rw [giveBack_of_none hback, giveBack_of_none (hagain.trans hback)]
  | some back =>
    rw [giveBack_of_some hback, giveBack_of_some (hagain.trans hback)]
    exact congrArg (fun tree => ({ r with tree, cursor := back.2 }, back.1.toList)) hsettle

end Run

namespace Grammar.Relabels

variable {f : RuleId → RuleId} {g g' : Grammar} (h : g.Relabels f g') (s : Settings) (r : Run)
include h

theorem trail (t : Tree) (ids : List NodeId) : Run.trail g' s (t.relabelled f) ids = Run.trail g s t ids := by
  have hplace : (t.relabelled f).place g' = t.place g := funext (h.place t)
  rw [Run.trail, Run.trail, hplace]

theorem adoptRun (rule : RuleId) (growth : Growth) :
    Run.adopt g' (r.relabelled f) (f rule) (growth.relabelled f) = (Run.adopt g r rule growth).relabelled f := by
  have hadopt := h.adopt r.tree r.active rule growth
  simp only [Run.adopt, Run.relabelled, hadopt]

theorem reportLeaving (p : Phrase) (must taken : Bool) (l : Leaving) :
    Run.reportLeaving g' s (r.relabelled f) p must taken l = (Run.reportLeaving g s r p must taken l).relabelled f := by
  have htrail : Run.trail g' s (r.relabelled f).tree l.asked = Run.trail g s r.tree l.asked := h.trail s r.tree l.asked
  unfold Run.reportLeaving
  rw [htrail]
  dsimp only
  cases l.unfinished? with
  | none =>
    dsimp only
    split <;> rfl
  | some place =>
    dsimp only
    split <;> split <;> rfl

/-- **A phrase is placed alike.** -/
theorem resolve (p : Phrase) (must : Bool) :
    (r.relabelled f).resolve g' s p must = ((r.resolve g s p must).1.relabelled f, (r.resolve g s p must).2) := by
  have hown : (r.relabelled f).tree.offer g' p (r.relabelled f).active =
      (r.tree.offer g p r.active).map (Change.relabelled f) := h.offer r.tree r.active p
  have hclimb : (r.relabelled f).tree.climb g' p (r.relabelled f).active =
      (r.tree.climb g p r.active).relabelled f := h.climb r.tree r.active p
  have hleaving : (r.relabelled f).tree.leaving g' (r.relabelled f).active
      ((r.tree.climb g p r.active).relabelled f) = r.tree.leaving g r.active (r.tree.climb g p r.active) :=
    h.leaving r.tree r.active _
  unfold Run.resolve
  dsimp only
  rw [hown, h.offerGlobal, hclimb, hleaving]
  dsimp only [Search.found?_map, Search.dropped_map, Climb.relabelled]
  cases (r.tree.offer g p r.active).found? with
  | some c =>
    dsimp only [Option.map_some]
    rw [Change.made_relabelled, ← Run.change_relabelled]
    rfl
  | none =>
    dsimp only [Option.map_none]
    cases (Tree.offerGlobal g p).found? with
    | some line =>
      obtain ⟨rule, growth⟩ := line
      dsimp only [Option.map_some, Prod.map_apply]
      rw [Growth.depth_relabelled, ← h.adoptRun]
      rfl
    | none =>
      dsimp only [Option.map_none]
      cases (r.tree.climb g p r.active).taken? with
      | some taker =>
        obtain ⟨id, c⟩ := taker
        dsimp only [Option.map_some, Prod.map_apply]
        rw [Change.made_relabelled, ← h.reportLeaving, ← Run.change_relabelled]
        rfl
      | none =>
        dsimp only [Option.map_none]
        rw [← h.reportLeaving]
        rfl

/-! ### Reading -/

theorem flush : (r.relabelled f).flush g' s = (r.flush g s).relabelled f := by
  cases hbuffer : r.buffer? with
  | none => rw [Run.flush_of_none hbuffer, Run.flush_of_none (r := r.relabelled f) hbuffer]
  | some p =>
    rw [Run.flush_of_some hbuffer, Run.flush_of_some (r := r.relabelled f) hbuffer, h.resolve]
    rfl

theorem push (kind : PhraseKind) (ch : Char) :
    (r.relabelled f).push g' s kind ch = (r.push g s kind ch).relabelled f := by
  by_cases hkind : kind = .chars
  · subst hkind
    have hresolve : ((r.relabelled f).hold .chars ch).resolve g' s ((r.relabelled f).grown .chars ch) false = _ :=
      h.resolve s (r.hold .chars ch) (r.grown .chars ch) false
    rw [Run.push_chars, Run.push_chars, hresolve]
    dsimp only
    split <;> rfl
  · rw [Run.push_eq_of_ne hkind, Run.push_eq_of_ne hkind]
    rfl

theorem readText (ch : Char) :
    (r.relabelled f).readText g' s ch = ((r.readText g s ch).1.relabelled f, (r.readText g s ch).2) := by
  have htake : (r.relabelled f).takeChar g' s ch = (r.takeChar g s ch).relabelled f :=
    congrArg Prod.fst (h.resolve s (r.past ch) (.single .chars r.cursor ch) true)
  rw [Run.readText, htake, Run.giveBack_relabelled]
  rfl

/-- **Both grammars read in lockstep**: their runs stay the same but for the numbers of rules. -/
theorem lockstep : Run.Lockstep g g' s s fun _ a b => b = a.relabelled f where
  classes := h.classes
  inText := by
    rintro rest a b rfl
    exact Run.inText_relabelled
  kind := by
    rintro rest a b rfl
    rfl
  push := by
    rintro ch rest a b kind rfl hin hfeeds
    exact h.push s a kind ch
  skip := by
    rintro ch rest a b rfl hin hbuffer hstarts
    exact Run.skip_relabelled ch
  flush := by
    rintro rest a b rfl hin hstops
    exact h.flush s a
  readText := by
    rintro ch rest a b rfl hin
    rw [h.readText]
    exact ⟨rfl, rfl⟩

theorem reportEnd : (r.relabelled f).reportEnd g' s = (r.reportEnd g s).relabelled f := by
  have hchain : (r.relabelled f).tree.chain (r.relabelled f).active = r.tree.chain r.active :=
    Tree.chain_relabelled _ _
  have hneeds : (r.relabelled f).tree.needsMore g' = r.tree.needsMore g := funext (h.needsMore r.tree)
  have hplace : (r.relabelled f).tree.place g' = r.tree.place g := funext (h.place r.tree)
  have hending : (r.relabelled f).ending? g' = r.ending? g := by
    rw [Run.ending?, Run.ending?, hchain, hneeds, hplace]
    rfl
  rw [Run.reportEnd_eq, Run.reportEnd_eq, hending]
  cases r.ending? g <;> rfl

theorem finish : (r.relabelled f).finish g' s = (r.finish g s).relabelled f := by
  unfold Run.finish
  dsimp only
  rw [h.flush]
  split
  · exact h.reportEnd s _
  · rfl

/-- **Both grammars read a text to the same end**, or neither comes to one. -/
theorem read? (text : List Char) : g'.read? s text = (g.read? s text).map (Run.relabelled f) := by
  have hread := h.lockstep s |>.readAll (allowance text.length) text [] (Run.relabelled_start h.topLevel).symm
  unfold Grammar.read?
  generalize Run.readAll g s _ _ text = a?, Run.readAll g' s _ _ text = b? at hread ⊢
  cases hread with
  | none => rfl
  | some hab =>
    subst hab
    exact congrArg some (h.finish s _)

end Grammar.Relabels

/-! ### What can be seen of the result -/

/-- What can be seen of an instance where rules go by their names. -/
structure Sight where
  rule : String
  parent? : Option NodeId
  /-- What its parts took, each with the name under which it can be found. -/
  entries : List (Option String × Entry)
  globals : List Child
  around : List NodeId
  span? : Option Span
  needsMore : Bool
  place : Place

/-- The instance `id`, as it can be seen. -/
def Tree.sight? (g : Grammar) (t : Tree) (id : NodeId) : Option Sight :=
  (t.node? id).map fun n =>
    { rule := g.name n.rule
      parent? := n.parent?
      entries := n.entries.map fun e => (((g.parts n.rule)[e.part]?).bind Part.key?, e)
      globals := n.globals
      around := t.ancestors id
      span? := t.span? id
      needsMore := t.needsMore g id
      place := t.place g id }

/-- What a text was read to, with names in place of the numbers of rules: the instances in the order of their numbers,
the reports and the counters. -/
structure NamedOutcome where
  instances : List Sight
  reports : List Diagnostic
  counters? : Option Counters

/-- The outcome with rules by their names. -/
def Outcome.named (g : Grammar) (o : Outcome) : NamedOutcome :=
  ⟨(List.range o.tree.size).filterMap (o.tree.sight? g), o.reports, o.counters?⟩

namespace Grammar.Relabels

variable {f : RuleId → RuleId} {g g' : Grammar} (h : g.Relabels f g')
include h

theorem sight? (t : Tree) (id : NodeId) : (t.relabelled f).sight? g' id = t.sight? g id := by
  unfold Tree.sight?
  rw [Tree.node?_relabelled, Tree.ancestors_relabelled, Tree.span?_relabelled, h.needsMore, h.place, Option.map_map]
  refine congrArg (fun look => Option.map look (t.node? id)) (funext fun n => ?_)
  have hkey : ∀ e : Entry, ((g'.parts (f n.rule))[e.part]?).bind Part.key? =
      ((g.parts n.rule)[e.part]?).bind Part.key? := by
    intro e
    rw [h.parts, List.getElem?_map, Option.bind_map]
    exact congrArg (Option.bind _) (funext fun part => Part.key?_relabelled)
  simp only [Function.comp_apply, Node.relabelled, h.name, hkey]

/-- **Both grammars read a text to the same outcome.** -/
theorem outcome (s : Settings) (text : String) :
    (g'.outcome s text).map (Outcome.named g') = (g.outcome s text).map (Outcome.named g) := by
  rw [outcome_eq, outcome_eq, h.read? s text.toList]
  cases g.read? s text.toList with
  | none => rfl
  | some r =>
    have hsight : (r.tree.relabelled f).sight? g' = r.tree.sight? g := funext (h.sight? r.tree)
    have hsize : (r.tree.relabelled f).size = r.tree.size := Tree.size_relabelled _
    simp only [Option.map_some, Run.relabelled, Except.map, Outcome.named, hsight, hsize]

end Grammar.Relabels

/-- **The order in which rules are declared does not matter.**  Take any draft, and its rules in another order, with the
top level, the global choice and the character classes as they are.  Either both are refused, for faults of the same
kind, or both are built.  Then every text is read to the same outcome under all settings, once rules go by their names:
the same instances under the same numbers, what they took and where, what they still need, the same reports with the
same trails, and the same counts; or the text comes to its end with neither. -/
theorem Draft.rule_order_immaterial (d : Draft) (rules : List (Rule String)) (h : d.rules.Perm rules) :
    (∃ e e', d.build = .error e ∧ (d.withRules rules).build = .error e' ∧ e'.kind = e.kind) ∨
      ∃ g g', d.build = .ok g ∧ (d.withRules rules).build = .ok g' ∧ ∀ (s : Settings) (text : String),
        (g'.outcome s text).map (Outcome.named g') = (g.outcome s text).map (Outcome.named g) := by
  rcases d.rebuild h with hrefused | ⟨g, g', f, hg, hg', hrelabels⟩
  · exact Or.inl hrefused
  · exact Or.inr ⟨g, g', hg, hg', hrelabels.outcome⟩

namespace Phonebook

/-- A name alone. -/
def person : Rule String := ⟨"Person", [.simple (.identifier "name")]⟩

/-- A name and numbers, each an instance of its own. -/
def entry : Rule String :=
  ⟨"Entry", [.choice { key := "person", candidates := ["Person"], singular := true },
    .choice { key := "numbers", candidates := ["Number"], separator? := some "," }]⟩

/-- A number. -/
def number : Rule String := ⟨"Number", [.simple (.number "digits")]⟩

/-- Entries first, then lone names. -/
def draft : Draft where
  topLevel? := some [.choice { key := "lines", candidates := ["Entry", "Person"], separatorOptional := true }]
  rules := [person, entry, number]

theorem immaterial_phonebook : draft.rules.Perm [number, person, entry] ∧
    ∃ g g', draft.build = .ok g ∧ (draft.withRules [number, person, entry]).build = .ok g' ∧
      ∀ (s : Settings) (text : String),
        (g'.outcome s text).map (Outcome.named g') = (g.outcome s text).map (Outcome.named g) := by
  have hperm : draft.rules.Perm [number, person, entry] := by decide
  refine ⟨hperm, ?_⟩
  rcases draft.rule_order_immaterial _ hperm with ⟨e, -, hrefused, -⟩ | hbuilt
  · have hbuilt : draft.build.toBool = true := by decide
    rw [hrefused] at hbuilt
    cases hbuilt
  · exact hbuilt

end Phonebook

end PhraseTree
