import PhraseTree.Proofs.Run.Freezing
import PhraseTree.Proofs.Tree.Separators

/-!
# Separators in a run

An instance takes the separator of a choice before it is known what follows, and nothing looks back at it later.  What
follows may be a further instance of the choice, an entry of a later part, or nothing at all.  So separators stand between
instances only, exactly as far as no instance went past one and none has just taken one (`Grammar.separators_between_iff`).

* `Run.WentPast g s text r id` — before the run came to `r`, the instance `id` went past a separator at some turn;
* `Run.Turn.evolves`: what a turn makes of the entries;
* `Run.Reached.wentPast_of_untidy`, `Run.untidy_of_wentPast`: an instance is untidy exactly if it went past a separator;
* `Trailing.accepted`: separators after the last instance, and after the only one of a singular choice, of which nothing
  is reported.
-/

namespace PhraseTree

variable {g : Grammar} {p : Phrase}

namespace Run

variable {s : Settings} {text rest : List Char} {r r' : Run} {must : Bool} {taken : List Phrase} {id : NodeId}

/-! ### Turns -/

/-- **What a turn makes of the entries.** -/
theorem Turn.evolves (h : Turn g s text r p must r' rest) : r.tree.Evolves r'.tree := by
  have hplaces := resolve_places g s r p must
  have hevolves : r.tree.Evolves (r.resolve g s p must).1.tree := by
    cases htook : (r.resolve g s p must).2 with
    | true => exact (hplaces.takes htook).evolves h.tree_arranged.active_lt
    | false =>
      rw [(hplaces.refuses htook).1]
      exact .refl r.tree
  obtain ⟨-, hsame | ⟨-, hsettled⟩⟩ := h.goes_on
  · rw [hsame]
    exact hevolves
  · rw [hsettled]
    exact hevolves.settle _

theorem Turn.arranged (h : Turn g s text r p must r' rest) : r'.tree.Arranged r'.active := by
  have hresolved := resolve_arranged h.tree_arranged g s p must
  obtain ⟨hactive, hsame | ⟨-, hsettled⟩⟩ := h.goes_on
  · rw [hsame, hactive]
    exact hresolved
  · rw [hsettled, hactive]
    exact hresolved.settle

/-! ### The course of a run -/

/-- **At some turn before the run came to `r`** the instance `id` went past a separator. -/
def WentPast (g : Grammar) (s : Settings) (text : List Char) (r : Run) (id : NodeId) : Prop :=
  ∃ r₀ p must r₁ rest, Turn g s text r₀ p must r₁ rest ∧ Later g s r₁ rest r ∧ Tree.GoesPast g r₀.tree r₁.tree id

/-- The instance `id` is not tidy. -/
structure Untidy (g : Grammar) (id : NodeId) (r : Run) : Prop where
  arranged : r.tree.Arranged r.active
  node : ∃ n, r.tree.node? id = some n ∧ ¬ n.Tidy g

theorem Untidy.resolve (h : r.Untidy g id) : (r.resolve g s p must).1.Untidy g id := by
  refine ⟨resolve_arranged h.arranged g s p must, ?_⟩
  have hplaces := resolve_places g s r p must
  cases htook : (r.resolve g s p must).2 with
  | true =>
    have hevolves := (hplaces.takes htook).evolves h.arranged.active_lt
    exact (hevolves.tidy_iff id).mpr (Or.inl h.node)
  | false =>
    rw [(hplaces.refuses htook).1]
    exact h.node

theorem Untidy.settle (h : r.Untidy g id) : Untidy g id { r with tree := r.tree.settle r.active } := by
  have hevolves := (Tree.Evolves.refl r.tree).settle r.active
  exact ⟨h.arranged.settle, (hevolves.tidy_iff id).mpr (Or.inl h.node)⟩

/-- **An instance that went past a separator stays untidy.** -/
theorem untidy_of_wentPast (h : WentPast g s text r id) : r.Untidy g id := by
  obtain ⟨r₀, p, must, r₁, rest, hturn, hlater, hpast⟩ := h
  have hstart : r₁.Untidy g id := ⟨hturn.arranged, (hturn.evolves.tidy_iff id).mpr (Or.inr hpast)⟩
  exact hlater.rule (P := Untidy g id) (fun hr => ⟨hr.arranged, hr.node⟩) Untidy.resolve Untidy.settle
    (fun _ hr => ⟨hr.arranged, hr.node⟩) hstart

/-- **An instance that is untidy went past a separator**: one turn made it so. -/
theorem Reached.wentPast_of_untidy (h : Reached g s text r taken rest) (huntidy : ∃ n, r.tree.node? id = some n ∧ ¬ n.Tidy g) :
    ∃ r₀ p must r₁ rest₁, Turn g s text r₀ p must r₁ rest₁ ∧ Leads g s r₁ rest₁ r rest ∧
      Tree.GoesPast g r₀.tree r₁.tree id := by
  induction h with
  | start =>
    obtain ⟨n, hn, hnot⟩ := huntidy
    rw [Tree.node?_root hn] at hnot
    exact absurd List.isChain_nil hnot
  | @flush r taken rest p hr hin hbuffer hend ih =>
    have hturn := Turn.flush hr hin hbuffer hend
    rcases (hturn.evolves.tidy_iff id).mp huntidy with hbefore | hpast
    · obtain ⟨r₀, p', must, r₁, rest₁, hturn₁, hleads, hpast⟩ := ih hbefore
      exact ⟨r₀, p', must, r₁, rest₁, hturn₁, hleads.flush hin hbuffer hend, hpast⟩
    · exact ⟨r, p, true, _, rest, hturn, .refl, hpast⟩
  | @read r r' taken taken' ch again rest hr hread ih =>
    have hearlier : (∃ n, r.tree.node? id = some n ∧ ¬ n.Tidy g) →
        ∃ r₀ p must r₁ rest₁, Turn g s text r₀ p must r₁ rest₁ ∧ Leads g s r₁ rest₁ r' (again ++ rest) ∧
          Tree.GoesPast g r₀.tree r₁.tree id := by
      intro hbefore
      obtain ⟨r₀, p, must, r₁, rest₁, hturn, hleads, hpast⟩ := ih hbefore
      exact ⟨r₀, p, must, r₁, rest₁, hturn, hleads.read hread, hpast⟩
    rcases hr.turn_of_read hread with ⟨r₀, p, must, hturn, htree, -⟩ | ⟨htree, -⟩
    · rcases (hturn.evolves.tidy_iff id).mp huntidy with hbefore | hpast
      · rw [htree] at hbefore
        exact hearlier hbefore
      · exact ⟨r₀, p, must, r', again ++ rest, hturn, .refl, hpast⟩
    · rw [htree] at huntidy
      exact hearlier huntidy

end Run

/-- **Where separators stand** in what a text is read to.  Of two entries of one part that follow each other both are
instances of a plural choice, with the separator between them unless it may be left out.  The separators that an
instance took stand between instances only exactly if it has not just taken one, and did not go past one at any turn of
the run. -/
theorem Grammar.separators_between_iff {g : Grammar} {s : Settings} {text : List Char} {r : Run}
    (hread : g.read? s text = some r) :
    ∀ id n, r.tree.node? id = some n →
      (n.entries.IsChain fun later earlier => later.part = earlier.part →
        ∃ x y c, later = .child y ∧ earlier = .child x ∧ y.part = x.part ∧
          (g.parts n.rule)[x.part]? = some (.choice c) ∧ c.singular = false ∧
            (x.separated = true ∨ c.separatorOptional = true)) ∧
      (n.SeparatorsBetween g ↔
        (∀ e ∈ n.last?, ¬ e.Separates (g.parts n.rule)) ∧ ¬ Run.WentPast g s text r id) := by
  intro id n hn
  have hlegal : n.Legal g := (read?_passes hread).tree_conforms.1.legal id n hn
  have hpast : Run.WentPast g s text r id ↔ ¬ n.Tidy g := by
    constructor
    · intro hpast
      obtain ⟨m, hm, hnot⟩ := (Run.untidy_of_wentPast hpast).node
      cases hn.symm.trans hm
      exact hnot
    · intro hnot
      obtain ⟨r₀, taken, hends, rfl⟩ := read?_reached hread
      have htree : (if s.reportUnfinished then r₀.reportEnd g s else r₀).tree = r₀.tree := by
        split
        · exact (r₀.reportEnd_cases g s).1
        · rfl
      rw [htree] at hn
      obtain ⟨r₁, p, must, r₂, rest, hturn, hleads, hpast⟩ := hends.reached.wentPast_of_untidy ⟨n, hn, hnot⟩
      refine ⟨r₁, p, must, r₂, rest, hturn, ?_, hpast⟩
      split
      · exact .reported hleads hends.buffer
      · exact .reached hleads
  refine ⟨hlegal.same_part, ?_⟩
  rw [hlegal.separatorsBetween_iff, hpast, not_not]

namespace Trailing

/-- The values of a list, with commas between them. -/
def values (singular : Bool) : RuleChoice RuleId :=
  { key := "values", candidates := [1], singular, separator? := some "," }

/-- Values, alone or in parentheses. -/
def rules (parts : List (Part RuleId)) : List (Rule RuleId) :=
  [⟨topLevelName, parts⟩, ⟨"Value", [.simple (.identifier "name")]⟩]

/-- A list in parentheses. -/
def enclosed : List (Part RuleId) := [.simple (.keyword "("), .choice (values false), .simple (.keyword ")")]

/-- A single value. -/
def single : List (Part RuleId) := [.choice (values true)]

theorem sound_enclosed : Sound (rules enclosed) { key := "global", candidates := [], optional := true } {} := by
  constructor <;> decide +kernel

theorem sound_single : Sound (rules single) { key := "global", candidates := [], optional := true } {} := by
  constructor <;> decide +kernel

def list : Grammar := ⟨rules enclosed, _, _, sound_enclosed⟩

def value : Grammar := ⟨rules single, _, _, sound_single⟩

/-- The list `(a,b)` has its comma between the values, so it did not go past one. -/
theorem between_list : ∃ r, list.read? { reportUnfinished := true } ['(', 'a', ',', 'b', ')'] = some r ∧
    ¬ Run.WentPast list { reportUnfinished := true } ['(', 'a', ',', 'b', ')'] r 0 := by
  have hends : (list.read? { reportUnfinished := true } ['(', 'a', ',', 'b', ')']).isSome = true := by decide +kernel
  obtain ⟨r, hread⟩ := Option.isSome_iff_exists.mp hends
  have hbetween : ((list.read? { reportUnfinished := true } ['(', 'a', ',', 'b', ')']).bind (·.tree.node? 0)).any
      (fun n => decide (n.SeparatorsBetween list)) = true := by decide +kernel
  rw [hread, Option.bind_some, Option.any_eq_true] at hbetween
  obtain ⟨n, hn, hbetween⟩ := hbetween
  obtain ⟨-, hiff⟩ := Grammar.separators_between_iff hread 0 n hn
  exact ⟨r, hread, (hiff.mp (of_decide_eq_true hbetween)).2⟩

/-- **Separators after the last instance are accepted silently**: the comma in `(a,)`, and the one after a single value.
-/
theorem accepted :
    (∃ r n, list.read? { reportUnfinished := true } ['(', 'a', ',', ')'] = some r ∧ r.reports = [] ∧
        r.tree.node? 0 = some n ∧ ¬ n.SeparatorsBetween list) ∧
      ∃ r n, value.read? { reportUnfinished := true } ['a', ','] = some r ∧ r.reports = [] ∧
        r.tree.node? 0 = some n ∧ ¬ n.SeparatorsBetween value := by
  have hsilent : ∀ {g : Grammar} {s : Settings} {text : List Char},
      ((g.read? s text).bind fun r => (r.tree.node? 0).map fun n => (r.reports, decide (n.SeparatorsBetween g))) =
        some ([], false) →
      ∃ r n, g.read? s text = some r ∧ r.reports = [] ∧ r.tree.node? 0 = some n ∧ ¬ n.SeparatorsBetween g := by
    intro g s text h
    obtain ⟨r, hread, hnode⟩ := Option.bind_eq_some_iff.mp h
    obtain ⟨n, hn, hsame⟩ := Option.map_eq_some_iff.mp hnode
    obtain ⟨hreports, hnot⟩ := Prod.mk.inj hsame
    exact ⟨r, n, hread, hreports, hn, of_decide_eq_false hnot⟩
  exact ⟨hsilent (by decide +kernel), hsilent (by decide +kernel)⟩

end Trailing

end PhraseTree
