import PhraseTree.Proofs.Run.Conformity
import PhraseTree.Proofs.Tree.Arrangement

/-!
# Runs keep their trees together

The tree of a run is well-arranged in every state (`Run.Passes.tree_arranged`), so every instance can be reached from
the top level and, the top level apart, covers a stretch of the text (`Run.Passes.forms_one_tree`).
-/

namespace PhraseTree

namespace Run

variable {g : Grammar} {s : Settings} {text : List Char} {r : Run}

/-- Placing a phrase keeps the tree together, be it taken or refused. -/
theorem resolve_arranged (h : r.tree.Arranged r.active) (g : Grammar) (s : Settings) (p : Phrase) (must : Bool) :
    (r.resolve g s p must).1.tree.Arranged (r.resolve g s p must).1.active :=
  resolve_tree (P := fun t active => t.Arranged active) h (fun ht => h.takes ht) s must

theorem Passes.tree_arranged (h : Passes g s text r) : r.tree.Arranged r.active :=
  h.rule (P := fun r => r.tree.Arranged r.active) (fun hr => hr) (fun hr => resolve_arranged hr g s _ _)
    (fun hr => hr.settle) (fun _ hr => hr) Tree.root_arranged

/-- **The instances form one tree in every state of every run.**  Nothing is left over from what was given up and
nothing is shared: the children of all entries are the instances but the top level, each just once and below its parent.
Every other instance has taken something, and the active one is at the latest end of the tree. -/
theorem Passes.forms_one_tree (h : Passes g s text r) :
    r.tree.Arranged r.active ∧ (∀ id : Nat, id < r.tree.size → 0 ∈ r.tree.chain id) ∧
      ∀ id : Nat, 0 < id → id < r.tree.size → (r.tree.span? id).isSome = true := by
  have ha := h.tree_arranged
  obtain ⟨hc, -⟩ := h.tree_conforms
  exact ⟨ha, fun id hid => ha.zero_mem_chain hid, fun id hpos hid => ha.span?_isSome hc hpos hid⟩

end Run

theorem Listing.arranged_listing :
    ∃ r, (grammar true).read? {} ['a', ' ', '1', ' ', 'b', '<', 'c', '>'] = some r ∧ r.tree.size = 3 ∧
      r.tree.Arranged r.active ∧ (∀ id : Nat, id < r.tree.size → 0 ∈ r.tree.chain id) ∧
        ∀ id : Nat, 0 < id → id < r.tree.size → (r.tree.span? id).isSome = true := by
  have hsize : ((grammar true).read? {} ['a', ' ', '1', ' ', 'b', '<', 'c', '>']).map (·.tree.size) = some 3 := by
    decide +kernel
  obtain ⟨r, hread, hsize⟩ := Option.map_eq_some_iff.mp hsize
  obtain ⟨r₀, taken, hends, rfl⟩ := Grammar.read?_reached hread
  exact ⟨_, hread, hsize, Run.Passes.forms_one_tree (.reached hends.reached)⟩

end PhraseTree
