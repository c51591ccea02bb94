import PhraseTree.Grammar.Basic

/-!
# Building a grammar

A `Draft` is a grammar as it is declared, with references by name.  `Draft.build` resolves the names and makes its
checks in this order; the first that fails decides the error:

1. the top level was declared;
2. no name is declared twice, the name of the top level included;
3. every reference, rule by rule and then in the global choice, names a rule;
4. the ends of every character range are in order;
5. there is no left recursion.

Rules are numbered by natural numbers here.  Where a number has to fit 32 bits, check 2 has a second error, at the first
rule whose number does not fit (`TooManyRules`: "Grammar has n rules, more than a rule id can address").  It is left out, so
`Draft.build` stands for drafts of at most 2 ^ 32 rules, with the top level.
-/

namespace PhraseTree

/-- A grammar as declared. -/
structure Draft where
  topLevel? : Option (List (Part String)) := none
  rules : List (Rule String) := []
  global? : Option (RuleChoice String) := none
  classes : CharClasses := {}

/-- Why a draft is no grammar. -/
inductive GrammarError where
  | missingTopLevel
  | duplicateRule (name : String)
  | undefinedRule (name user : String)
  | invalidCharRange (range : CharRange)
  | leftRecursion (names : List String)
deriving DecidableEq

namespace GrammarError

/-- The text of an error. -/
def message : GrammarError → String
  | .missingTopLevel => "Missing top-level rule"
  | .duplicateRule name => "Rule " ++ Text.quoted name ++ " is defined more than once"
  | .undefinedRule name user => "Undefined rule " ++ Text.quoted name ++ " referenced by " ++ Text.quoted user
  | .invalidCharRange range =>
    "Invalid character range " ++ Text.quotedChar range.first ++ "..=" ++ Text.quotedChar range.last
  | .leftRecursion names => "Left recursion detected: " ++ " -> ".intercalate names

end GrammarError

/-! ## names -/

/-- The first name that is equal to an earlier one. -/
def firstRepeated (seen : List String) : List String → Option String
  | [] => none
  | name :: rest => if name ∈ seen then some name else firstRepeated (name :: seen) rest

/-- The number of the rule called `name`; `user` is what refers to it. -/
def resolveName (names : List String) (user name : String) : Except GrammarError RuleId :=
  match names.findIdx? (· == name) with
  | some id => .ok id
  | none => .error (.undefinedRule name user)

/-- Resolves candidates in order, up to the first that names no rule. -/
def resolveNames (names : List String) (user : String) : List String → Except GrammarError (List RuleId)
  | [] => .ok []
  | name :: rest => do
    let id ← resolveName names user name
    let ids ← resolveNames names user rest
    return id :: ids

/-- Resolves the candidates of a choice. -/
def resolveChoice (names : List String) (user : String) (c : RuleChoice String) :
    Except GrammarError (RuleChoice RuleId) := do
  let ids ← resolveNames names user c.candidates
  return ⟨c.key, ids, c.optional, c.singular, c.separator?, c.separatorOptional⟩

/-- Resolves a part; only choices refer to rules. -/
def resolvePart (names : List String) (user : String) : Part String → Except GrammarError (Part RuleId)
  | .simple p => .ok (.simple p)
  | .choice c => (resolveChoice names user c).map .choice
  | .alternatives a => .ok (.alternatives a)

/-- Resolves the parts of a rule in order. -/
def resolveParts (names : List String) (user : String) : List (Part String) → Except GrammarError (List (Part RuleId))
  | [] => .ok []
  | part :: rest => do
    let part ← resolvePart names user part
    let parts ← resolveParts names user rest
    return part :: parts

/-- Resolves all rules in order; each is the user of its own references. -/
def resolveRules (names : List String) : List (Rule String) → Except GrammarError (List (Rule RuleId))
  | [] => .ok []
  | rule :: rest => do
    let parts ← resolveParts names rule.name rule.parts
    let rules ← resolveRules names rest
    return ⟨rule.name, parts⟩ :: rules

/-! ## what the checks make sure of -/

theorem firstRepeated_eq_none {seen names : List String} (h : firstRepeated seen names = none) :
    names.Nodup ∧ ∀ n ∈ names, n ∉ seen := by
  induction names generalizing seen with
  | nil => simp
  | cons n rest ih =>
    unfold firstRepeated at h
    split at h
    · simp at h
    · next hn =>
      obtain ⟨hnd, hout⟩ := ih h
      refine ⟨List.nodup_cons.2 ⟨fun hmem => (hout n hmem) (by simp), hnd⟩, ?_⟩
      intro m hm
      rcases List.mem_cons.1 hm with rfl | hm
      · exact hn
      · exact fun hs => hout m hm (by simp [hs])

theorem resolveName_lt {names : List String} {user name : String} {id : RuleId}
    (h : resolveName names user name = .ok id) : id < names.length := by
  unfold resolveName at h
  split at h
  · next hf =>
    cases h
    exact (List.findIdx?_eq_some_iff_findIdx_eq.1 hf).1
  · cases h

theorem resolveNames_lt {names : List String} {user : String} {cs : List String} {ids : List RuleId}
    (h : resolveNames names user cs = .ok ids) : ∀ id ∈ ids, id < names.length := by
  induction cs generalizing ids with
  | nil => cases h; simp
  | cons c rest ih =>
    simp only [resolveNames, bind, Except.bind] at h
    split at h
    · cases h
    · next hid =>
      split at h
      · cases h
      · next hids =>
        cases h
        intro i hi
        rcases List.mem_cons.1 hi with rfl | hi
        · exact resolveName_lt hid
        · exact ih hids i hi

theorem resolveChoice_lt {names : List String} {user : String} {c : RuleChoice String} {c' : RuleChoice RuleId}
    (h : resolveChoice names user c = .ok c') : ∀ id ∈ c'.candidates, id < names.length := by
  simp only [resolveChoice, bind, Except.bind] at h
  split at h
  · cases h
  · next hids =>
    cases h
    exact resolveNames_lt hids

theorem resolvePart_lt {names : List String} {user : String} {p : Part String} {p' : Part RuleId}
    (h : resolvePart names user p = .ok p') : ∀ id ∈ p'.candidates, id < names.length := by
  cases p with
  | simple p => cases h; simp [Part.candidates]
  | alternatives a => cases h; simp [Part.candidates]
  | choice c =>
    simp only [resolvePart] at h
    cases hc : resolveChoice names user c with
    | error e => simp [hc, Except.map] at h
    | ok c' =>
      rw [hc] at h
      cases h
      exact resolveChoice_lt hc

theorem resolveParts_lt {names : List String} {user : String} {ps : List (Part String)} {ps' : List (Part RuleId)}
    (h : resolveParts names user ps = .ok ps') : ∀ p ∈ ps', ∀ id ∈ p.candidates, id < names.length := by
  induction ps generalizing ps' with
  | nil => cases h; simp
  | cons p rest ih =>
    simp only [resolveParts, bind, Except.bind] at h
    split at h
    · cases h
    · next hp =>
      split at h
      · cases h
      · next hps =>
        cases h
        intro q hq
        rcases List.mem_cons.1 hq with rfl | hq
        · exact resolvePart_lt hp
        · exact ih hps q hq

theorem resolveRules_spec {names : List String} {rs : List (Rule String)} {rs' : List (Rule RuleId)}
    (h : resolveRules names rs = .ok rs') :
    rs'.map Rule.name = rs.map Rule.name ∧
      ∀ r ∈ rs', ∀ p ∈ r.parts, ∀ id ∈ p.candidates, id < names.length := by
  induction rs generalizing rs' with
  | nil => cases h; simp
  | cons r rest ih =>
    simp only [resolveRules, bind, Except.bind] at h
    split at h
    · cases h
    · next hp =>
      split at h
      · cases h
      · next hrs =>
        cases h
        obtain ⟨hnames, hlt⟩ := ih hrs
        refine ⟨by simp [hnames], ?_⟩
        intro q hq
        rcases List.mem_cons.1 hq with rfl | hq
        · exact resolveParts_lt hp
        · exact hlt q hq

/-! ## building -/

/-- The global choice of a draft that declares none: nothing is tried, and nothing is missing. -/
def noGlobal : RuleChoice String := { key := "global", candidates := [], optional := true }

namespace Draft

/-- The rules in order of their numbers: the top level, then the others as declared. -/
def declared (d : Draft) (top : List (Part String)) : List (Rule String) := ⟨topLevelName, top⟩ :: d.rules

/-- The resolved rules and global choice of a draft that passes every check. -/
def check (d : Draft) : Except GrammarError (List (Rule RuleId) × RuleChoice RuleId) :=
  match d.topLevel? with
  | none => .error .missingTopLevel
  | some top =>
    let names := (d.declared top).map Rule.name
    match firstRepeated [] names with
    | some name => .error (.duplicateRule name)
    | none => do
      let rules ← resolveRules names (d.declared top)
      let global ← resolveChoice names "global" (d.global?.getD noGlobal)
      match d.classes.ranges.find? (!·.isOrdered) with
      | some range => .error (.invalidCharRange range)
      | none =>
        match Leading.cycle? rules with
        | some cycle => .error (.leftRecursion (cycle.map fun id => (names[id]?).getD ""))
        | none => .ok (rules, global)

theorem sound_of_check {d : Draft} {rules : List (Rule RuleId)} {global : RuleChoice RuleId}
    (h : d.check = .ok (rules, global)) : Sound rules global d.classes := by
  unfold check at h
  split at h
  · cases h
  next top _ =>
  dsimp only at h
  split at h
  · cases h
  next hnames =>
  simp only [bind, Except.bind] at h
  split at h
  · cases h
  next rules' hrules =>
  split at h
  · cases h
  next global' hglobal =>
  split at h
  · cases h
  next hranges =>
  split at h
  · cases h
  next hcycle =>
  cases h
  obtain ⟨hspec, hlt⟩ := resolveRules_spec hrules
  have hlen : ((d.declared top).map Rule.name).length = rules.length := by
    simpa using (congrArg List.length hspec).symm
  exact {
    topLevel := by simpa [declared] using congrArg List.head? hspec
    names_nodup := by rw [hspec]; exact (firstRepeated_eq_none hnames).1
    candidates_lt := by rw [← hlen]; exact hlt
    global_lt := by rw [← hlen]; exact resolveChoice_lt hglobal
    ranges_ordered := by simpa using List.find?_eq_none.1 hranges
    acyclic := hcycle }

/-- The grammar that `d` declares. -/
def build (d : Draft) : Except GrammarError Grammar :=
  match h : d.check with
  | .error e => .error e
  | .ok (rules, global) => .ok ⟨rules, global, d.classes, sound_of_check h⟩

end Draft

end PhraseTree
