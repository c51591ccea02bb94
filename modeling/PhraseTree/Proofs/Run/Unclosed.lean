import PhraseTree.Proofs.Run.Conformity
import PhraseTree.Proofs.Run.Reporting

/-!
# Texts that are open at the end

What is reported at the end of a text depends on the parts that come after the latest entries alone, not on whether these
entries are complete.  So a text that is still open at the end is noticed where a required part comes after it, or after
the latest entry of an instance around it, and is accepted silently otherwise.

* `Node.Lacks g n` — what is looked at: a required part has not begun, or no branch of the latest fork is satisfied;
* `Grammar.Guarded` — every part with a text has a required part after it;
* `Grammar.open_text_noticed`: at the end of a text that is open, something fatal is reported exactly if it was before or
  the active instance or one around it lacks something, as the active one does if the grammar is guarded;
* `Unguarded.silent`: a text of which the closing phrase never came, and nothing is reported.
-/

namespace PhraseTree

/-! ### What is looked at -/

/-- **What an instance lacks** where it is looked at: a branch of its latest fork that is satisfied, or a required part
after its latest entry. -/
def Node.Lacks (g : Grammar) (n : Node) : Prop :=
  (∃ f, n.last? = some (.fork f) ∧ f.satisfied = false) ∨
    ∃ part ∈ (g.parts n.rule).drop n.nextPart, part.isOptional = false

theorem Node.needsMore_iff {g : Grammar} {n : Node} : n.needsMore g = true ↔ n.Lacks g := by
  have hrest : (!restOptional Part.isOptional (g.parts n.rule) n.nextPart) = true ↔
      ∃ part ∈ (g.parts n.rule).drop n.nextPart, part.isOptional = false := by
    simp [restOptional]
  unfold needsMore Lacks
  cases n.last? with
  | none => simpa using hrest
  | some e =>
    cases e with
    | capture c | child x => simpa using hrest
    | fork f =>
      dsimp only
      rw [Bool.or_eq_true, hrest]
      simp

/-- Every part with a text has a required part after it. -/
def Grammar.Guarded (g : Grammar) : Prop :=
  ∀ rule ∈ g.rules, ∀ i < rule.parts.length, ∀ part ∈ rule.parts[i]?, part.HasText →
    ∃ later ∈ rule.parts.drop (i + 1), later.isOptional = false

instance (g : Grammar) : Decidable g.Guarded := inferInstanceAs (Decidable (∀ rule ∈ g.rules, _))

/-- In a guarded grammar an instance in an open text lacks something. -/
theorem Grammar.Guarded.lacks {g : Grammar} (hg : g.Guarded) {n : Node} (hl : n.Legal g) (hin : n.inText = true) :
    n.Lacks g := by
  obtain ⟨e, hlast, hein⟩ : ∃ e, n.last? = some e ∧ e.inText = true := by
    simpa [Node.inText, Option.any_eq_true] using hin
  obtain ⟨part, hat, htext⟩ := (hl.fits e (List.mem_of_mem_head? hlast)).hasText_of_inText hein
  have hnext : n.nextPart = e.part + 1 := by simp only [Node.nextPart, hlast]
  unfold Node.Lacks
  rw [hnext]
  unfold Grammar.parts at hat ⊢
  cases hrule : g.rules[n.rule]? with
  | none => simp [hrule] at hat
  | some rule =>
    rw [hrule] at hat
    exact Or.inr (hg rule (List.mem_of_getElem? hrule) e.part (List.getElem?_eq_some_iff.mp hat).1 part hat htext)

/-! ### What is reported -/

namespace Run

variable {g : Grammar} {s : Settings} {r : Run}

/-- The report about the end of the text is made exactly if the active instance or one around it lacks something, and it
is fatal. -/
theorem hasFatal_reportEnd :
    hasFatal (r.reportEnd g s).reports = true ↔
      hasFatal r.reports = true ∨ ∃ id ∈ r.tree.chain r.active, ∃ n, r.tree.node? id = some n ∧ n.Lacks g := by
  have hneeds : (∃ id ∈ r.tree.chain r.active, r.tree.needsMore g id = true) ↔
      ∃ id ∈ r.tree.chain r.active, ∃ n, r.tree.node? id = some n ∧ n.Lacks g := by
    simp only [Tree.needsMore, Option.any_eq_true, Node.needsMore_iff]
  rw [← hneeds, reportEnd_eq, ending?]
  cases hfind : (r.tree.chain r.active).find? (r.tree.needsMore g) with
  | none =>
    have hnone : ¬ ∃ id ∈ r.tree.chain r.active, r.tree.needsMore g id = true := by
      rintro ⟨id, hid, hmore⟩
      exact List.find?_eq_none.mp hfind id hid hmore
    simp only [Option.map_none, hnone, or_false]
  | some id =>
    have hsome : ∃ id ∈ r.tree.chain r.active, r.tree.needsMore g id = true :=
      ⟨id, List.mem_of_find?_eq_some hfind, List.find?_some hfind⟩
    simp only [Option.map_some, hsome, or_true, iff_true]
    exact List.any_eq_true.mpr ⟨_, List.mem_cons_self, rfl⟩

end Run

/-- **When a text that is open at the end is noticed.**  Where a text is to be looked at when it ends, and the active
instance is in an open text then, something fatal is reported exactly if something fatal was reported before, or the
active instance or one around it lacks something.  In a guarded grammar the active instance does, so an open text is
always noticed. -/
theorem Grammar.open_text_noticed {g : Grammar} {s : Settings} {text : List Char} {r : Run} (hs : s.reportUnfinished = true)
    (hread : g.read? s text = some r) (hin : r.inText = true) :
    ∃ r₀ taken, Run.Ends g s text r₀ taken ∧ r₀.tree = r.tree ∧ r₀.active = r.active ∧
      (hasFatal r.reports = true ↔
        hasFatal r₀.reports = true ∨ ∃ id ∈ r.tree.chain r.active, ∃ n, r.tree.node? id = some n ∧ n.Lacks g) ∧
      (g.Guarded → hasFatal r.reports = true) := by
  obtain ⟨r₀, taken, hends, rfl⟩ := read?_reached hread
  rw [if_pos hs] at hin ⊢
  have htree := (r₀.reportEnd_cases g s).1
  have hactive : (r₀.reportEnd g s).active = r₀.active := by
    rw [Run.reportEnd_eq]
    cases r₀.ending? g <;> rfl
  have hfatal := Run.hasFatal_reportEnd (g := g) (s := s) (r := r₀)
  rw [Run.inText, htree, hactive] at hin
  rw [htree, hactive]
  refine ⟨r₀, taken, hends, rfl, rfl, hfatal, fun hg => hfatal.mpr (Or.inr ?_)⟩
  obtain ⟨n, hn, hnin⟩ := Tree.inText_eq_true.mp hin
  have hl := (Run.Passes.reached hends.reached).tree_conforms.1.legal _ n hn
  exact ⟨r₀.active, r₀.tree.mem_chain_self r₀.active, n, hn, hg.lacks hl hnin⟩

namespace Unguarded

/-- A comment that fills the text. -/
def comment : TextPart := { key := "comment", opening? := some "#", closing := "!" }

/-- A comment, and maybe a stop that has to follow it. -/
def rules (stop : List (Part RuleId)) : List (Rule RuleId) := [⟨topLevelName, .simple (.text comment) :: stop⟩]

theorem sound_rules : Sound (rules []) { key := "global", candidates := [], optional := true } {} := by
  constructor <;> decide +kernel

theorem sound_stopped :
    Sound (rules [.simple (.keyword ".")]) { key := "global", candidates := [], optional := true } {} := by
  constructor <;> decide +kernel

/-- Nothing has to follow the comment. -/
def grammar : Grammar := ⟨rules [], _, _, sound_rules⟩

/-- A stop has to follow the comment. -/
def stopped : Grammar := ⟨rules [.simple (.keyword ".")], _, _, sound_stopped⟩

theorem noticed_stopped : stopped.Guarded ∧ ∃ r, stopped.read? { reportUnfinished := true } ['#', 'a'] = some r ∧
    r.inText = true ∧ hasFatal r.reports = true := by
  have hguarded : stopped.Guarded := by decide +kernel
  have hopen : (stopped.read? { reportUnfinished := true } ['#', 'a']).map (·.inText) = some true := by decide +kernel
  obtain ⟨r, hread, hin⟩ := Option.map_eq_some_iff.mp hopen
  obtain ⟨-, -, -, -, -, -, hfatal⟩ := Grammar.open_text_noticed rfl hread hin
  exact ⟨hguarded, r, hread, hin, hfatal hguarded⟩

/-- **A comment that is never closed is accepted silently.** -/
theorem silent : ∃ r, grammar.read? { reportUnfinished := true } ['#', 'a', 'b', 'c'] = some r ∧ r.inText = true ∧
    r.reports = [] ∧ hasFatal r.reports = false := by
  have hopen : (grammar.read? { reportUnfinished := true } ['#', 'a', 'b', 'c']).map
      (fun r => (r.inText, r.reports)) = some (true, []) := by decide +kernel
  obtain ⟨r, hread, hsame⟩ := Option.map_eq_some_iff.mp hopen
  obtain ⟨hin, hreports⟩ := Prod.mk.inj hsame
  exact ⟨r, hread, hin, hreports, by rw [hreports]; rfl⟩

end Unguarded

end PhraseTree
