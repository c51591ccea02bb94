import PhraseTree.Proofs.Run.Reached
import PhraseTree.Proofs.Tree.Captures

/-!
# Runs keep to the grammar

The tree of a run conforms to the grammar in every state, and no instance but the active one is in an open text
(`Run.Passes.tree_conforms`).  `Run.Passes.legal` says what this means for each instance.
-/

namespace PhraseTree

namespace Run

variable {g : Grammar} {s : Settings} {text : List Char} {r : Run}

/-- A tree that conforms to the grammar still does after a phrase was placed. -/
theorem resolve_conforms (hc : r.tree.Conforms g) (s : Settings) (p : Phrase) (must : Bool) :
    (r.resolve g s p must).1.tree.Conforms g :=
  resolve_tree (P := fun t _ => t.Conforms g) hc (fun ht => ht.conforms hc) s must

theorem flush_conforms (hc : r.tree.Conforms g) (s : Settings) : (r.flush g s).tree.Conforms g := by
  unfold flush
  split
  · exact resolve_conforms hc s _ true
  · exact hc

/-- A tree that conforms to the grammar still does after a character was read. -/
theorem Reads.conforms {r' : Run} {taken taken' : List Phrase} {ch : Char} {again : List Char}
    (h : Reads g s r taken ch r' taken' again) (hc : r.tree.Conforms g) : r'.tree.Conforms g := by
  have hleads : Leads g s r [ch] r' (again ++ []) := Leads.refl.read h
  exact hleads.rule (P := fun r => r.tree.Conforms g) (fun h => h) (fun h => resolve_conforms h s _ _)
    (fun h => h.settle _) (fun _ h => h) hc

theorem Passes.tree_conforms (h : Passes g s text r) : r.tree.Conforms g ∧ r.tree.OpenOnlyAt r.active := by
  refine h.tree_rule (P := fun t active => t.Conforms g ∧ t.OpenOnlyAt active) ?_ ?_ ?_
  · exact ⟨Tree.root_conforms g, Tree.root_openOnlyAt⟩
  · exact fun ⟨hc, ho⟩ ht => ⟨ht.conforms hc, ht.openOnlyAt hc ho⟩
  · exact fun ⟨hc, ho⟩ => ⟨hc.settle _, ho.settle _⟩

/-- **The tree conforms to the grammar in every state of every run.**  The parts of the entries of an instance are in
range and never decrease; each entry fits its part and follows the one before it; the children are of the candidates
and lead back to the instance; only the latest entry may be an open text. -/
theorem Passes.legal (h : Passes g s text r) :
    ∀ id n, r.tree.node? id = some n →
      (∀ e ∈ n.entries, e.part < (g.parts n.rule).length) ∧ (n.inOrder.Pairwise fun a b => a.part ≤ b.part) ∧
        n.Legal g ∧ n.Linked g r.tree id ∧ ∀ e ∈ n.entries.tail, e.inText = false := by
  intro id n hn
  obtain ⟨hc, -⟩ := h.tree_conforms
  have hlegal : n.Legal g := hc.legal id n hn
  exact ⟨fun e he => (hlegal.fits e he).lt_length, hlegal.sorted, hlegal, hc.linked id n hn, hlegal.inText_tail⟩

end Run

namespace Listing

/-- A remark, which ends before a stop. -/
def remark : TextPart := { key := "remark", opening? := some "#", closing := ".", handsBack := true, optional := true }

/-- A quoted value.  It may leave its closing phrase to be read again. -/
def quoted (handsBack : Bool) : TextPart := { key := "quoted", opening? := some "<", closing := ">", handsBack }

/-- Names, each with a number or a quoted value, and maybe a remark. -/
def rules (handsBack : Bool) : List (Rule RuleId) := [⟨topLevelName, [.choice { key := "items", candidates := [1] }]⟩,
  ⟨"Item", [.simple (.identifier "name"),
    .alternatives ⟨[[.number "value"], [.text (quoted handsBack)]], false⟩, .simple (.text remark)]⟩]

theorem sound_rules (handsBack : Bool) :
    Sound (rules handsBack) { key := "global", candidates := [], optional := true } {} := by
  cases handsBack <;> constructor <;> decide +kernel

def grammar (handsBack : Bool) : Grammar := ⟨rules handsBack, _, _, sound_rules handsBack⟩

theorem legal_listing :
    ∃ r, (grammar true).read? {} ['a', ' ', '<', 'b', '>'] = some r ∧ ∀ id n, r.tree.node? id = some n →
      (∀ e ∈ n.entries, e.part < ((grammar true).parts n.rule).length) ∧
        (n.inOrder.Pairwise fun a b => a.part ≤ b.part) ∧ n.Legal (grammar true) ∧ n.Linked (grammar true) r.tree id ∧
        ∀ e ∈ n.entries.tail, e.inText = false := by
  have hends : ((grammar true).read? {} ['a', ' ', '<', 'b', '>']).isSome = true := by decide +kernel
  obtain ⟨r, hread⟩ := Option.isSome_iff_exists.mp hends
  obtain ⟨r₀, taken, hends, rfl⟩ := Grammar.read?_reached hread
  exact ⟨_, hread, Run.Passes.legal (.reached hends.reached)⟩

end Listing

end PhraseTree
