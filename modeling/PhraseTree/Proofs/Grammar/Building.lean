import PhraseTree.Grammar.Build
import PhraseTree.Proofs.Grammar.Recursion

/-!
# Which drafts are grammars

What `Draft.build` accepts, what it makes of a draft, and why it refuses one, each said without the order in which it
works.

* `Draft.Admissible d top` — the draft, with the top level `top`, can be read with;
* `Draft.Refuses d e` — the first check that the draft fails is the one of `e`, and `e` names the first thing that fails;
* `Draft.Holds d kind` — the draft passes the check that reports faults of that kind;
* `Draft.Declares d top g` — `g` has the rules of the draft in the same order, with numbers in place of names.

`Draft.build_admits`: a draft is built if and only if it is admissible, and is refused for the first of its faults
otherwise.
-/

namespace PhraseTree

/-! ### Names and references -/

/-- The names to which a rule refers, part by part, each with its own. -/
def Rule.references (rule : Rule String) : List (String × String) :=
  rule.parts.flatMap fun part => part.candidates.map (rule.name, ·)

/-- **A rule called `a` may make an instance of one called `b`** before it takes a phrase: one of its choices, behind
optional parts only, has `b` among its candidates. -/
def LeadsByName (rules : List (Rule String)) (a b : String) : Prop :=
  ∃ rule ∈ rules, rule.name = a ∧ ∃ (i : Nat) (c : RuleChoice String),
    rule.parts[i]? = some (.choice c) ∧ Skips Part.isOptional rule.parts 0 i ∧ b ∈ c.candidates

namespace Draft

/-- The names of all rules, that of the top level first. -/
def names (d : Draft) : List String := topLevelName :: d.rules.map Rule.name

/-- All references, each with the name of what makes it: rule by rule, and those of the global choice last. -/
def references (d : Draft) (top : List (Part String)) : List (String × String) :=
  (d.declared top).flatMap Rule.references ++ (d.global?.getD noGlobal).candidates.map ("global", ·)

theorem map_name_declared (d : Draft) (top : List (Part String)) : (d.declared top).map Rule.name = d.names := rfl

/-- **A draft that can be read with.** -/
structure Admissible (d : Draft) (top : List (Part String)) : Prop where
  topLevel : d.topLevel? = some top
  names : d.names.Nodup
  references : ∀ x ∈ d.references top, x.2 ∈ d.names
  ranges : ∀ range ∈ d.classes.ranges, range.first ≤ range.last
  /-- No rule can make an instance of itself before it takes a phrase, however many others come in between. -/
  recursion : ∀ name, ¬ Relation.TransGen (LeadsByName (d.declared top)) name name

/-- **Why a draft is refused**: the first of its faults. -/
inductive Refuses (d : Draft) : GrammarError → Prop
  | missingTopLevel (htop : d.topLevel? = none) : d.Refuses .missingTopLevel
  /-- The first name that is equal to an earlier one. -/
  | duplicateRule {top : List (Part String)} {name : String} {earlier later : List String}
      (htop : d.topLevel? = some top) (hsplit : d.names = earlier ++ name :: later) (hnodup : earlier.Nodup)
      (hmem : name ∈ earlier) : d.Refuses (.duplicateRule name)
  /-- The first reference that leads to no rule. -/
  | undefinedRule {top : List (Part String)} {name user : String} (htop : d.topLevel? = some top)
      (hnames : d.names.Nodup) (hfirst : (d.references top).find? (·.2 ∉ d.names) = some (user, name)) :
      d.Refuses (.undefinedRule name user)
  /-- The first range whose ends are not in order. -/
  | invalidCharRange {top : List (Part String)} {range : CharRange} (htop : d.topLevel? = some top)
      (hnames : d.names.Nodup) (hreferences : ∀ x ∈ d.references top, x.2 ∈ d.names)
      (hfirst : d.classes.ranges.find? (fun r => r.last < r.first) = some range) : d.Refuses (.invalidCharRange range)
  /-- A cycle that can be reached from the first rule from which any can. -/
  | leftRecursion {top : List (Part String)} {root : String} {earlier later cycle : List String}
      (htop : d.topLevel? = some top) (hnames : d.names.Nodup) (hreferences : ∀ x ∈ d.references top, x.2 ∈ d.names)
      (hranges : ∀ range ∈ d.classes.ranges, range.first ≤ range.last)
      (hcycle : Leading.IsCycle (LeadsByName (d.declared top)) cycle) (hsplit : d.names = earlier ++ root :: later)
      (hroot : ∀ name ∈ cycle, Relation.ReflTransGen (LeadsByName (d.declared top)) root name)
      (hearlier : ∀ name ∈ earlier, ¬ Leading.Recurs (LeadsByName (d.declared top)) name) :
      d.Refuses (.leftRecursion cycle)

end Draft

/-! ### Resolved rules -/

/-- The choice with the numbers of its candidates. -/
def RuleChoice.Resolves (names : List String) (c : RuleChoice String) (c' : RuleChoice RuleId) : Prop :=
  ∃ ids, c' = ⟨c.key, ids, c.optional, c.singular, c.separator?, c.separatorOptional⟩ ∧
    List.Forall₂ (fun name id => names[id]? = some name) c.candidates ids

/-- The part with numbers in place of names. -/
inductive Part.Resolves (names : List String) : Part String → Part RuleId → Prop
  | simple (p : SimplePart) : Resolves names (.simple p) (.simple p)
  | alternatives (a : Alternatives) : Resolves names (.alternatives a) (.alternatives a)
  | choice {c : RuleChoice String} {c' : RuleChoice RuleId} (h : c.Resolves names c') :
      Resolves names (.choice c) (.choice c')

/-- The rule with numbers in place of names. -/
structure Rule.Resolves (names : List String) (rule : Rule String) (rule' : Rule RuleId) : Prop where
  name : rule'.name = rule.name
  parts : List.Forall₂ (Part.Resolves names) rule.parts rule'.parts

/-- **The grammar of a draft.**  The number of a rule is its place among the declared ones, and that of a candidate is
the place of the rule it names. -/
structure Draft.Declares (d : Draft) (top : List (Part String)) (g : Grammar) : Prop where
  rules : List.Forall₂ (Rule.Resolves d.names) (d.declared top) g.rules
  global : (d.global?.getD noGlobal).Resolves d.names g.global
  classes : g.classes = d.classes
  find : ∀ name id, g.find? name = some id ↔ g.rules[id]?.map Rule.name = some name

/-! ### Resolving -/

/-- **What comes of resolving references**: either all lead to rules, or the first that does not is the fault. -/
inductive Resolution (names : List String) {α : Type} (references : List (String × String)) (P : α → Prop) :
    Except GrammarError α → Prop
  | ok {a : α} (hall : ∀ x ∈ references, x.2 ∈ names) (h : P a) : Resolution names references P (.ok a)
  | undefined {user name : String} (h : references.find? (·.2 ∉ names) = some (user, name)) :
      Resolution names references P (.error (.undefinedRule name user))

section Resolution

variable {names : List String} {user : String}

theorem Resolution.bind {α β : Type} {references references' : List (String × String)} {P : α → Prop} {Q : β → Prop}
    {m : Except GrammarError α} {f : α → Except GrammarError β} (h : Resolution names references P m)
    (hf : ∀ a, P a → Resolution names references' Q (f a)) : Resolution names (references ++ references') Q (m >>= f) := by
  cases h with
  | undefined h =>
    refine .undefined ?_
    rw [List.find?_append, h]
    rfl
  | @ok a hall ha =>
    show Resolution names _ Q (f a)
    have hnone : references.find? (·.2 ∉ names) = none := List.find?_eq_none.mpr (by simpa using hall)
    have hnext := hf a ha
    generalize f a = outcome at hnext ⊢
    cases hnext with
    | undefined h =>
      refine .undefined ?_
      rw [List.find?_append, hnone]
      exact h
    | ok hall' hb =>
      refine .ok (fun x hx => ?_) hb
      rcases List.mem_append.mp hx with hx | hx
      · exact hall x hx
      · exact hall' x hx

theorem Resolution.map {α β : Type} {references : List (String × String)} {P : α → Prop} {Q : β → Prop}
    {m : Except GrammarError α} {f : α → β} (h : Resolution names references P m) (hf : ∀ a, P a → Q (f a)) :
    Resolution names references Q (m >>= fun a => .ok (f a)) := by
  have hbind : Resolution names (references ++ []) Q (m >>= fun a => .ok (f a)) :=
    h.bind fun a ha => .ok (by simp) (hf a ha)
  rwa [List.append_nil] at hbind

theorem resolveName_resolution (names : List String) (user name : String) :
    Resolution names [(user, name)] (fun id => names[id]? = some name) (resolveName names user name) := by
  unfold resolveName
  split
  · next id hid =>
    obtain ⟨hlt, hname, -⟩ := List.findIdx?_eq_some_iff_getElem.mp hid
    have hat : names[id]? = some name := by
      rw [List.getElem?_eq_getElem hlt]
      exact congrArg some (by simpa using hname)
    exact .ok (by simpa using List.mem_of_getElem? hat) hat
  · next hnone =>
    have hnot : name ∉ names := fun hmem => by simpa using List.findIdx?_eq_none_iff.mp hnone name hmem
    exact .undefined (by simp [hnot])

theorem resolveNames_resolution (names : List String) (user : String) (candidates : List String) :
    Resolution names (candidates.map (user, ·))
      (List.Forall₂ (fun name id => names[id]? = some name) candidates) (resolveNames names user candidates) := by
  induction candidates with
  | nil => exact .ok (by simp) .nil
  | cons name rest ih =>
    refine (resolveName_resolution names user name).bind fun id hid => ?_
    exact ih.map fun ids hids => .cons hid hids

theorem resolveChoice_resolution (names : List String) (user : String) (c : RuleChoice String) :
    Resolution names (c.candidates.map (user, ·)) (c.Resolves names) (resolveChoice names user c) :=
  (resolveNames_resolution names user c.candidates).map fun ids hids => ⟨ids, rfl, hids⟩

theorem resolvePart_resolution (names : List String) (user : String) (part : Part String) :
    Resolution names (part.candidates.map (user, ·)) (Part.Resolves names part) (resolvePart names user part) := by
  cases part with
  | simple p => exact .ok (by simp [Part.candidates]) (.simple p)
  | alternatives a => exact .ok (by simp [Part.candidates]) (.alternatives a)
  | choice c => exact (resolveChoice_resolution names user c).map fun c' hc => .choice hc

theorem resolveParts_resolution (names : List String) (user : String) (parts : List (Part String)) :
    Resolution names (parts.flatMap fun part => part.candidates.map (user, ·))
      (List.Forall₂ (Part.Resolves names) parts) (resolveParts names user parts) := by
  induction parts with
  | nil => exact .ok (by simp) .nil
  | cons part rest ih =>
    refine (resolvePart_resolution names user part).bind fun part' hpart => ?_
    exact ih.map fun parts' hparts => .cons hpart hparts

theorem resolveRules_resolution (names : List String) (rules : List (Rule String)) :
    Resolution names (rules.flatMap Rule.references) (List.Forall₂ (Rule.Resolves names) rules)
      (resolveRules names rules) := by
  induction rules with
  | nil => exact .ok (by simp) .nil
  | cons rule rest ih =>
    refine (resolveParts_resolution names rule.name rule.parts).bind fun parts hparts => ?_
    exact ih.map fun rules' hrules => .cons ⟨rfl, hparts⟩ hrules

end Resolution

/-! ### Leading rules by name and by number -/

theorem rel_getElem? {α β : Type} {R : α → β → Prop} {l : List α} {l' : List β} (h : List.Forall₂ R l l') (i : Nat) :
    Option.Rel R l[i]? l'[i]? := by
  induction h generalizing i with
  | nil => exact .none
  | cons hab _ ih =>
    cases i with
    | zero => exact .some hab
    | succ i => exact ih i

theorem Part.Resolves.isOptional_eq {names : List String} {part : Part String} {part' : Part RuleId}
    (h : part.Resolves names part') : part'.isOptional = part.isOptional := by
  cases h with
  | simple | alternatives => rfl
  | choice h =>
    obtain ⟨ids, rfl, -⟩ := h
    rfl

/-- The same parts may be left out. -/
theorem skips_resolved {names : List String} {parts : List (Part String)} {parts' : List (Part RuleId)}
    (h : List.Forall₂ (Part.Resolves names) parts parts') (i j : Nat) :
    Skips Part.isOptional parts' i j ↔ Skips Part.isOptional parts i j := by
  have hat : ∀ k : Nat, (∃ part, parts'[k]? = some part ∧ part.isOptional = true) ↔
      ∃ part, parts[k]? = some part ∧ part.isOptional = true := by
    intro k
    have hrel := rel_getElem? h k
    generalize parts[k]? = part?, parts'[k]? = part'? at hrel ⊢
    cases hrel with
    | none => simp
    | some hpart => simp [hpart.isOptional_eq]
  exact forall_congr' fun k => by rw [hat k]

section Leads

variable {rules : List (Rule String)} {rules' : List (Rule RuleId)} {a b : RuleId} {m n : String}
  (h : List.Forall₂ (Rule.Resolves (rules.map Rule.name)) rules rules')
include h

/-- What a rule leads to by number it leads to by name. -/
theorem leadsByName_of_next (hb : b ∈ Leading.next rules' a) :
    ∃ m n, (rules.map Rule.name)[a]? = some m ∧ (rules.map Rule.name)[b]? = some n ∧ LeadsByName rules m n := by
  have hrule := rel_getElem? h a
  unfold Leading.next at hb
  generalize hat : rules[a]? = rule?, rules'[a]? = rule'? at hrule hb
  cases hrule with
  | none => cases hb
  | @some rule rule' hrule =>
    obtain ⟨i, c', hi, hskip, hmem⟩ := Leading.mem_of.mp hb
    have hpart := rel_getElem? hrule.parts i
    rw [hi] at hpart
    generalize hj : rule.parts[i]? = part? at hpart
    cases hpart with
    | some hpart =>
      cases hpart with
      | @choice c _ hc =>
        obtain ⟨ids, rfl, hids⟩ := hc
        obtain ⟨k, hk⟩ := List.getElem?_of_mem hmem
        have hcandidate := rel_getElem? hids k
        have hk' : ids[k]? = some b := hk
        rw [hk'] at hcandidate
        generalize hc : c.candidates[k]? = name? at hcandidate
        cases hcandidate with
        | @some name _ hname =>
          refine ⟨rule.name, name, by rw [List.getElem?_map, hat]; rfl, hname, rule, List.mem_of_getElem? hat, rfl, i, c,
            hj, (skips_resolved hrule.parts 0 i).mp hskip, List.mem_of_getElem? hc⟩

/-- What a rule leads to by name it leads to by number. -/
theorem next_of_leadsByName (hnodup : (rules.map Rule.name).Nodup) (ha : (rules.map Rule.name)[a]? = some m)
    (hleads : LeadsByName rules m n) : ∃ b, (rules.map Rule.name)[b]? = some n ∧ b ∈ Leading.next rules' a := by
  obtain ⟨rule, hmem, hname, i, c, hi, hskip, hn⟩ := hleads
  obtain ⟨k, hk⟩ := List.getElem?_of_mem hmem
  have hka : (rules.map Rule.name)[k]? = some m := by rw [List.getElem?_map, hk, ← hname]; rfl
  have hlt : k < (rules.map Rule.name).length := (List.getElem?_eq_some_iff.mp hka).1
  obtain rfl : k = a := (List.getElem?_inj hlt hnodup).mp (hka.trans ha.symm)
  have hrule := rel_getElem? h k
  rw [hk] at hrule
  unfold Leading.next
  generalize rules'[k]? = rule'? at hrule ⊢
  cases hrule with
  | @some _ rule' hrule =>
    have hpart := rel_getElem? hrule.parts i
    rw [hi] at hpart
    generalize hj : rule'.parts[i]? = part? at hpart
    cases hpart with
    | some hpart =>
      cases hpart with
      | choice hc =>
        obtain ⟨ids, rfl, hids⟩ := hc
        obtain ⟨k', hk'⟩ := List.getElem?_of_mem hn
        have hcandidate := rel_getElem? hids k'
        rw [hk'] at hcandidate
        generalize hb : ids[k']? = id? at hcandidate
        cases hcandidate with
        | @some _ b hb' =>
          exact ⟨b, hb', Leading.mem_of.mpr
            ⟨i, _, hj, (skips_resolved hrule.parts 0 i).mpr hskip, List.mem_of_getElem? hb⟩⟩

/-- The candidates of a resolved rule are rules. -/
theorem lt_of_mem_next (hb : b ∈ Leading.next rules' a) : b < rules'.length := by
  obtain ⟨-, n, -, hn, -⟩ := leadsByName_of_next h hb
  have hlt := (List.getElem?_eq_some_iff.mp hn).1
  rwa [List.length_map, h.length_eq] at hlt

/-- The name of a rule, given by its number. -/
theorem reflTransGen_by_name (hreach : Relation.ReflTransGen (fun a b => b ∈ Leading.next rules' a) a b)
    (ha : (rules.map Rule.name)[a]? = some m) :
    ∃ n, (rules.map Rule.name)[b]? = some n ∧ Relation.ReflTransGen (LeadsByName rules) m n := by
  induction hreach with
  | refl => exact ⟨m, ha, .refl⟩
  | tail _ hedge ih =>
    obtain ⟨n, hn, hmn⟩ := ih
    obtain ⟨n', n'', hn', hn'', hleads⟩ := leadsByName_of_next h hedge
    cases hn.symm.trans hn'
    exact ⟨n'', hn'', hmn.tail hleads⟩

theorem reflTransGen_by_number (hnodup : (rules.map Rule.name).Nodup)
    (hreach : Relation.ReflTransGen (LeadsByName rules) m n) (ha : (rules.map Rule.name)[a]? = some m) :
    ∃ b, (rules.map Rule.name)[b]? = some n ∧ Relation.ReflTransGen (fun a b => b ∈ Leading.next rules' a) a b := by
  induction hreach with
  | refl => exact ⟨a, ha, .refl⟩
  | tail _ hleads ih =>
    obtain ⟨b, hb, hab⟩ := ih
    obtain ⟨b', hb', hedge⟩ := next_of_leadsByName h hnodup hb hleads
    exact ⟨b', hb', hab.tail hedge⟩

/-- A rule leads to itself by number if and only if it does so by name. -/
theorem transGen_by_name_iff (hnodup : (rules.map Rule.name).Nodup) (ha : (rules.map Rule.name)[a]? = some m) :
    Relation.TransGen (fun a b => b ∈ Leading.next rules' a) a a ↔ Relation.TransGen (LeadsByName rules) m m := by
  constructor
  · intro hself
    obtain ⟨c, hreach, hedge⟩ := Relation.TransGen.tail'_iff.mp hself
    obtain ⟨n, hn, hmn⟩ := reflTransGen_by_name h hreach ha
    obtain ⟨n', m', hn', hm', hleads⟩ := leadsByName_of_next h hedge
    cases hn.symm.trans hn'
    cases ha.symm.trans hm'
    exact Relation.TransGen.tail' hmn hleads
  · intro hself
    obtain ⟨n, hreach, hleads⟩ := Relation.TransGen.tail'_iff.mp hself
    obtain ⟨c, hc, hac⟩ := reflTransGen_by_number h hnodup hreach ha
    obtain ⟨b, hb, hedge⟩ := next_of_leadsByName h hnodup hc hleads
    have hlt : a < (rules.map Rule.name).length := (List.getElem?_eq_some_iff.mp ha).1
    obtain rfl : a = b := (List.getElem?_inj hlt hnodup).mp (ha.trans hb.symm)
    exact Relation.TransGen.tail' hac hedge

theorem recurs_by_name (hnodup : (rules.map Rule.name).Nodup) (ha : (rules.map Rule.name)[a]? = some m)
    (hrecurs : Leading.Recurs (LeadsByName rules) m) : Leading.Recurs (fun a b => b ∈ Leading.next rules' a) a := by
  obtain ⟨n, hreach, hself⟩ := hrecurs
  obtain ⟨b, hb, hab⟩ := reflTransGen_by_number h hnodup hreach ha
  exact ⟨b, hab, (transGen_by_name_iff h hnodup hb).mpr hself⟩

/-- No rule leads to itself by number if and only if none does so by name. -/
theorem cycle?_eq_none_by_name (hnodup : (rules.map Rule.name).Nodup) :
    Leading.cycle? rules' = none ↔ ∀ name, ¬ Relation.TransGen (LeadsByName rules) name name := by
  rw [Leading.cycle?_eq_none_iff fun _ _ => lt_of_mem_next h]
  constructor
  · intro hnone name hself
    obtain ⟨n, ⟨rule, hmem, hname, -⟩, -⟩ := Relation.TransGen.head'_iff.mp hself
    obtain ⟨a, ha⟩ := List.getElem?_of_mem (List.mem_map.mpr ⟨rule, hmem, hname⟩)
    exact hnone a ((transGen_by_name_iff h hnodup ha).mpr hself)
  · intro hnone a hself
    obtain ⟨b, hedge, -⟩ := Relation.TransGen.head'_iff.mp hself
    obtain ⟨m, n, hm, -, -⟩ := leadsByName_of_next h hedge
    exact hnone m ((transGen_by_name_iff h hnodup hm).mp hself)

/-- **The names of the cycle that is found** lead step by step from the first of them back to it.  They can be reached
from the first rule from which a rule that leads to itself can. -/
theorem cycle?_by_name (hnodup : (rules.map Rule.name).Nodup) {cycle : List RuleId}
    (hcycle : Leading.cycle? rules' = some cycle) :
    Leading.IsCycle (LeadsByName rules) (cycle.map fun id => ((rules.map Rule.name)[id]?).getD "") ∧
      ∃ earlier root later, rules.map Rule.name = earlier ++ root :: later ∧
        (∀ name ∈ cycle.map fun id => ((rules.map Rule.name)[id]?).getD "",
          Relation.ReflTransGen (LeadsByName rules) root name) ∧
        ∀ name ∈ earlier, ¬ Leading.Recurs (LeadsByName rules) name := by
  obtain ⟨⟨a, inner, rfl, hdistinct, hchain⟩, root, hroot, hreach, hearlier⟩ :=
    Leading.cycle?_eq_some (fun _ _ => lt_of_mem_next h) hcycle
  have hlen : rules'.length = (rules.map Rule.name).length := by rw [List.length_map, h.length_eq]
  obtain ⟨start, hstart⟩ : ∃ n, (rules.map Rule.name)[root]? = some n := ⟨_, List.getElem?_eq_getElem (hlen ▸ hroot)⟩
  -- every rule of the cycle has a name, which can be reached from that of the root
  have hnamed : ∀ b ∈ a :: inner ++ [a], ∃ n, (rules.map Rule.name)[b]? = some n ∧
      Relation.ReflTransGen (LeadsByName rules) start n :=
    fun b hb => reflTransGen_by_name h (hreach b hb) hstart
  refine ⟨⟨((rules.map Rule.name)[a]?).getD "", inner.map fun id => ((rules.map Rule.name)[id]?).getD "", by simp, ?_, ?_⟩,
    (rules.map Rule.name).take root, start, (rules.map Rule.name).drop (root + 1), ?_, ?_, ?_⟩
  · rw [← List.map_cons (f := fun id => ((rules.map Rule.name)[id]?).getD "")]
    refine hdistinct.map_on fun b hb c hc heq => ?_
    obtain ⟨m, hm, -⟩ := hnamed b (List.mem_append_left _ hb)
    obtain ⟨n, hn, -⟩ := hnamed c (List.mem_append_left _ hc)
    rw [hm, hn] at heq
    exact (List.getElem?_inj (List.getElem?_eq_some_iff.mp hm).1 hnodup).mp
      (hm.trans ((congrArg some heq).trans hn.symm))
  · rw [List.isChain_map]
    refine hchain.imp fun b c hedge => ?_
    obtain ⟨m, n, hm, hn, hleads⟩ := leadsByName_of_next h hedge
    rw [hm, hn]
    exact hleads
  · obtain ⟨hlt, rfl⟩ := List.getElem?_eq_some_iff.mp hstart
    rw [List.getElem_cons_drop, List.take_append_drop]
  · intro name hname
    obtain ⟨b, hb, rfl⟩ := List.mem_map.mp hname
    obtain ⟨n, hn, hreach⟩ := hnamed b hb
    rw [hn]
    exact hreach
  · intro name hname hrecurs
    obtain ⟨k, hk⟩ := List.getElem?_of_mem hname
    rw [List.getElem?_take] at hk
    split at hk
    · next hlt => exact hearlier k hlt (recurs_by_name h hnodup hk hrecurs)
    · cases hk

end Leads

/-! ### The first fault -/

/-- The kinds of faults, one for each check. -/
inductive GrammarError.Kind where
  | missingTopLevel
  | duplicateRule
  | undefinedRule
  | invalidCharRange
  | leftRecursion
deriving DecidableEq

namespace GrammarError

/-- The kind of a fault. -/
def kind : GrammarError → Kind
  | .missingTopLevel => .missingTopLevel
  | .duplicateRule _ => .duplicateRule
  | .undefinedRule _ _ => .undefinedRule
  | .invalidCharRange _ => .invalidCharRange
  | .leftRecursion _ => .leftRecursion

/-- The place of the check that reports faults of the kind. -/
def Kind.place : Kind → Nat
  | .missingTopLevel => 0
  | .duplicateRule => 1
  | .undefinedRule => 2
  | .invalidCharRange => 3
  | .leftRecursion => 4

theorem Kind.place_injective : Function.Injective Kind.place := by
  intro k k' h
  cases k <;> cases k' <;> first | rfl | cases h

end GrammarError

namespace Draft

open GrammarError

variable {d : Draft} {top : List (Part String)} {e : GrammarError}

/-- **The draft passes the check that reports faults of the kind.** -/
def Holds (d : Draft) : Kind → Prop
  | .missingTopLevel => d.topLevel?.isSome = true
  | .duplicateRule => d.names.Nodup
  | .undefinedRule => ∀ top ∈ d.topLevel?, ∀ x ∈ d.references top, x.2 ∈ d.names
  | .invalidCharRange => ∀ range ∈ d.classes.ranges, range.first ≤ range.last
  | .leftRecursion => ∀ top ∈ d.topLevel?, ∀ name, ¬ Relation.TransGen (LeadsByName (d.declared top)) name name

theorem Admissible.holds (h : d.Admissible top) (kind : Kind) : d.Holds kind := by
  cases kind with
  | missingTopLevel => exact Option.isSome_of_eq_some h.topLevel
  | duplicateRule => exact h.names
  | undefinedRule =>
    intro top' htop'
    cases h.topLevel.symm.trans htop'
    exact h.references
  | invalidCharRange => exact h.ranges
  | leftRecursion =>
    intro top' htop'
    cases h.topLevel.symm.trans htop'
    exact h.recursion

/-- A fault is of the kind of the first check that the draft does not pass. -/
theorem Refuses.first (h : d.Refuses e) : ¬ d.Holds e.kind ∧ ∀ kind, kind.place < e.kind.place → d.Holds kind := by
  constructor
  · intro hholds
    cases h with
    | missingTopLevel htop => simp [Holds, kind, htop] at hholds
    | duplicateRule _ hsplit _ hmem =>
      have hnodup : d.names.Nodup := hholds
      rw [hsplit] at hnodup
      exact (List.nodup_append.mp hnodup).2.2 _ hmem _ List.mem_cons_self rfl
    | undefinedRule htop _ hfirst =>
      have hnot := List.find?_some hfirst
      simp only [decide_eq_true_eq] at hnot
      exact hnot (hholds _ htop _ (List.mem_of_find?_eq_some hfirst))
    | invalidCharRange _ _ _ hfirst =>
      have hlt := List.find?_some hfirst
      simp only [decide_eq_true_eq] at hlt
      exact absurd (hholds _ (List.mem_of_find?_eq_some hfirst)) (Char.not_le.mpr hlt)
    | leftRecursion htop _ _ _ hcycle =>
      obtain ⟨name, -, hself⟩ := hcycle.transGen
      exact hholds _ htop name hself
  · intro k hk
    have hsome : ∀ {top}, d.topLevel? = some top → d.Holds .missingTopLevel := fun h => Option.isSome_of_eq_some h
    have hresolved : ∀ {top}, d.topLevel? = some top → (∀ x ∈ d.references top, x.2 ∈ d.names) →
        d.Holds .undefinedRule := by
      intro top htop h top' htop'
      cases htop.symm.trans htop'
      exact h
    cases h with
    | missingTopLevel => cases k <;> simp [Kind.place, kind] at hk
    | duplicateRule htop =>
      cases k <;> first | exact hsome htop | simp [Kind.place, kind] at hk
    | undefinedRule htop hnames =>
      cases k <;> first | exact hsome htop | exact hnames | simp [Kind.place, kind] at hk
    | invalidCharRange htop hnames href =>
      cases k <;> first | exact hsome htop | exact hnames | exact hresolved htop href | simp [Kind.place, kind] at hk
    | leftRecursion htop hnames href hranges =>
      cases k <;>
        first | exact hsome htop | exact hnames | exact hresolved htop href | exact hranges | simp [Kind.place, kind] at hk

/-- What is refused is not admissible. -/
theorem Refuses.not_admissible (h : d.Refuses e) : ¬ d.Admissible top := fun ha => h.first.1 (ha.holds _)

end Draft

/-! ### Checking -/

/-- A name that is found repeated is equal to an earlier one, and no name before it is. -/
theorem firstRepeated_eq_some {seen names : List String} {name : String} (h : firstRepeated seen names = some name) :
    ∃ earlier later, names = earlier ++ name :: later ∧ earlier.Nodup ∧ (∀ n ∈ earlier, n ∉ seen) ∧
      (name ∈ seen ∨ name ∈ earlier) := by
  induction names generalizing seen with
  | nil => cases h
  | cons n rest ih =>
    unfold firstRepeated at h
    split at h
    · next hmem =>
      cases h
      exact ⟨[], rest, rfl, List.nodup_nil, by simp, Or.inl hmem⟩
    · next hnot =>
      obtain ⟨earlier, later, rfl, hnodup, hout, hmem⟩ := ih h
      refine ⟨n :: earlier, later, rfl, List.nodup_cons.mpr ⟨fun hn => hout n hn List.mem_cons_self, hnodup⟩, ?_, ?_⟩
      · intro m hm
        rcases List.mem_cons.mp hm with rfl | hm
        · exact hnot
        · exact fun hseen => hout m hm (List.mem_cons_of_mem n hseen)
      · rcases hmem with hmem | hmem
        · rcases List.mem_cons.mp hmem with rfl | hmem
          · exact Or.inr List.mem_cons_self
          · exact Or.inl hmem
        · exact Or.inr (List.mem_cons_of_mem n hmem)

/-- The number of a rule is the place of its name. -/
theorem Grammar.find?_eq_some_iff {g : Grammar} {name : String} {id : RuleId} :
    g.find? name = some id ↔ g.rules[id]?.map Rule.name = some name := by
  unfold Grammar.find?
  rw [List.findIdx?_eq_some_iff_getElem]
  constructor
  · rintro ⟨hlt, hname, -⟩
    rw [List.getElem?_eq_getElem hlt]
    exact congrArg some (by simpa using hname)
  · intro hat
    obtain ⟨rule, hrule, rfl⟩ := Option.map_eq_some_iff.mp hat
    obtain ⟨hlt, hget⟩ := List.getElem?_eq_some_iff.mp hrule
    refine ⟨hlt, by simp [hget], fun j hj hsame => ?_⟩
    have hnodup := g.sound.names_nodup
    have hlen : j < (g.rules.map Rule.name).length := by rw [List.length_map]; omega
    have heq : (g.rules.map Rule.name)[j]? = (g.rules.map Rule.name)[id]? := by
      rw [List.getElem?_map, List.getElem?_map, hrule, List.getElem?_eq_getElem (by omega)]
      exact congrArg some (by simpa using hsame)
    exact absurd ((List.getElem?_inj hlen hnodup).mp heq) (by omega)

namespace Draft

/-- **What the checks come to**: a fault, or an admissible draft with its rules and its global choice resolved. -/
theorem check_cases (d : Draft) :
    (∃ e, d.check = .error e ∧ d.Refuses e) ∨
      ∃ top rules global, d.check = .ok (rules, global) ∧ d.Admissible top ∧
        List.Forall₂ (Rule.Resolves d.names) (d.declared top) rules ∧
        (d.global?.getD noGlobal).Resolves d.names global := by
  unfold check
  cases htop : d.topLevel? with
  | none => exact Or.inl ⟨_, rfl, .missingTopLevel htop⟩
  | some top =>
    dsimp only
    rw [map_name_declared]
    cases hrepeated : firstRepeated [] d.names with
    | some name =>
      obtain ⟨earlier, later, hsplit, hnodup, -, hmem⟩ := firstRepeated_eq_some hrepeated
      exact Or.inl ⟨_, rfl, .duplicateRule htop hsplit hnodup (by simpa using hmem)⟩
    | none =>
      have hnames := (firstRepeated_eq_none hrepeated).1
      -- both kinds of references are resolved one after the other
      have hboth : Resolution d.names (d.references top)
          (fun x : List (Rule RuleId) × RuleChoice RuleId => List.Forall₂ (Rule.Resolves d.names) (d.declared top) x.1 ∧
            (d.global?.getD noGlobal).Resolves d.names x.2)
          (do
            let rules ← resolveRules d.names (d.declared top)
            let global ← resolveChoice d.names "global" (d.global?.getD noGlobal)
            .ok (rules, global)) :=
        (resolveRules_resolution d.names (d.declared top)).bind fun rules hrules =>
          (resolveChoice_resolution d.names "global" _).map fun global hglobal => ⟨hrules, hglobal⟩
      simp only [bind, Except.bind] at hboth ⊢
      cases hrules : resolveRules d.names (d.declared top) with
      | error e =>
        rw [hrules] at hboth
        cases hboth with
        | undefined hfirst => exact Or.inl ⟨_, rfl, .undefinedRule htop hnames hfirst⟩
      | ok rules =>
        rw [hrules] at hboth
        dsimp only at hboth ⊢
        cases hglobal : resolveChoice d.names "global" (d.global?.getD noGlobal) with
        | error e =>
          rw [hglobal] at hboth
          cases hboth with
          | undefined hfirst => exact Or.inl ⟨_, rfl, .undefinedRule htop hnames hfirst⟩
        | ok global =>
          rw [hglobal] at hboth
          cases hboth with
          | ok hreferences hresolved =>
            obtain ⟨hrulesResolved, hchoice⟩ := hresolved
            have hresolved : List.Forall₂ (Rule.Resolves ((d.declared top).map Rule.name)) (d.declared top) rules :=
              hrulesResolved
            have hunordered : (fun r : CharRange => !r.isOrdered) = fun r => decide (r.last < r.first) :=
              funext fun r => by rw [CharRange.isOrdered, ← decide_not, decide_eq_decide, Char.not_le]
            dsimp only
            cases hrange : d.classes.ranges.find? (!·.isOrdered) with
            | some range =>
              refine Or.inl ⟨_, rfl, .invalidCharRange htop hnames hreferences ?_⟩
              rwa [hunordered] at hrange
            | none =>
              have hranges : ∀ range ∈ d.classes.ranges, range.first ≤ range.last := by
                simpa [CharRange.isOrdered] using hrange
              dsimp only
              cases hcycle : Leading.cycle? rules with
              | some cycle =>
                obtain ⟨hloop, earlier, root, later, hsplit, hroot, hearlier⟩ := cycle?_by_name hresolved hnames hcycle
                exact Or.inl ⟨_, rfl, .leftRecursion htop hnames hreferences hranges hloop hsplit hroot hearlier⟩
              | none =>
                exact Or.inr ⟨top, rules, global, rfl,
                  ⟨htop, hnames, hreferences, hranges, (cycle?_eq_none_by_name hresolved hnames).mp hcycle⟩,
                  hresolved, hchoice⟩

theorem build_of_error {d : Draft} {e : GrammarError} (h : d.check = .error e) : d.build = .error e := by
  unfold build
  split
  · next e' he => exact congrArg _ (Except.error.inj (he.symm.trans h))
  · next hok => cases hok.symm.trans h

theorem build_of_ok {d : Draft} {rules : List (Rule RuleId)} {global : RuleChoice RuleId}
    (h : d.check = .ok (rules, global)) :
    d.build = .ok ⟨rules, global, d.classes, sound_of_check h⟩ := by
  unfold build
  split
  · next he => cases he.symm.trans h
  · next hok =>
    cases hok.symm.trans h
    rfl

/-- **Which drafts are built, and to what.**  A draft is built if and only if it has a top level, all names are distinct,
every reference leads to a rule, the ends of every range are in order, and no rule can make an instance of itself before
it takes a phrase.  One that is not is refused for the first of these that fails, with the first name, reference or range
that fails it, or a cycle that is reached from the first rule that reaches any.  The grammar has the rules in the
order in which they were declared, found by their names, and every candidate is the number of the rule it names. -/
theorem build_admits (d : Draft) :
    ((∃ g, d.build = .ok g) ↔ ∃ top, d.Admissible top) ∧ (∀ e, d.build = .error e → d.Refuses e) ∧
      ∀ g, d.build = .ok g → ∃ top, d.Admissible top ∧ d.Declares top g := by
  rcases d.check_cases with ⟨e, hcheck, hrefuses⟩ | ⟨top, rules, global, hcheck, hadmissible, hrules, hglobal⟩
  · have hbuild := build_of_error hcheck
    refine ⟨⟨?_, ?_⟩, ?_, ?_⟩
    · rintro ⟨g, hg⟩
      cases hbuild.symm.trans hg
    · rintro ⟨top, hadmissible⟩
      exact absurd hadmissible hrefuses.not_admissible
    · intro e' he'
      cases hbuild.symm.trans he'
      exact hrefuses
    · intro g hg
      cases hbuild.symm.trans hg
  · have hbuild := build_of_ok hcheck
    refine ⟨⟨fun _ => ⟨top, hadmissible⟩, fun _ => ⟨_, hbuild⟩⟩, ?_, ?_⟩
    · intro e he
      cases hbuild.symm.trans he
    · intro g hg
      cases hbuild.symm.trans hg
      exact ⟨top, hadmissible, hrules, hglobal, rfl, fun _ _ => Grammar.find?_eq_some_iff⟩

end Draft

end PhraseTree
