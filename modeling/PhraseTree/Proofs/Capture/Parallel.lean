import PhraseTree.Proofs.Capture.Shape

/-!
# Paths side by side

Alternatives follow their paths side by side and drop a path as soon as it refuses a phrase.  What is left of a path in
the end is what the path takes when it is followed by itself.

* `Path.alone? path ps` — the captures of a path that takes the phrases `ps` one after the other, by itself;
* `Alternatives.takeAll? a i f? ps` — the fork of alternatives that take them one after the other;
* `Alternatives.takeAll?_of`: a fork that goes on consists of the branches that go on, each by itself;
* `Alternatives.takeAll?_cons`: a fork consists of the paths that take all phrases, in the order of their declaration.
-/

namespace PhraseTree

variable {p : Phrase} {ps : List Phrase} {paths : List Path} {path : Path} {captures : List Capture} {i k : Nat}

/-! ### One path by itself -/

/-- The captures of a path, the latest first, after the phrases `ps`. -/
def Path.takes? (path : Path) (captures : List Capture) (ps : List Phrase) : Option (List Capture) :=
  ps.foldlM (fun captures p => (path.take? p captures.head?).map (Branch.record captures)) captures

/-- The captures of a path that takes the phrases from its first part on. -/
def Path.alone? (path : Path) (ps : List Phrase) : Option (List Capture) := path.takes? [] ps

/-- The branch after the phrases `ps`. -/
def Branch.takes? (paths : List Path) (ps : List Phrase) (b : Branch) : Option Branch :=
  ps.foldlM (fun b p => b.take? paths p) b

theorem Path.takes?_cons : path.takes? captures (p :: ps) =
    (path.take? p captures.head?).bind fun c => path.takes? (Branch.record captures c) ps := by
  rw [takes?, List.foldlM_cons]
  exact Option.bind_map

theorem Branch.takes?_cons {b : Branch} :
    b.takes? paths (p :: ps) = (b.take? paths p).bind (Branch.takes? paths ps) := by
  rw [takes?, List.foldlM_cons]
  rfl

theorem Branch.takes?_eq (hpath : paths[k]? = some path) (captures : List Capture) (ps : List Phrase) :
    Branch.takes? paths ps ⟨k, captures⟩ = (path.takes? captures ps).map (Branch.mk k) := by
  induction ps generalizing captures with
  | nil => rfl
  | cons p ps ih =>
    have htake : Branch.take? ⟨k, captures⟩ paths p =
        (path.take? p captures.head?).map fun c => ⟨k, Branch.record captures c⟩ := by
      simp only [Branch.take?, hpath, last?]
    rw [takes?_cons, Path.takes?_cons, htake, Option.bind_map, Option.map_bind]
    exact congrArg (Option.bind _) (funext fun c => ih (Branch.record captures c))

theorem Path.exists_last {after : List Capture} (h : path.takes? captures ps = some after)
    (hsome : captures ≠ [] ∨ ps ≠ []) : ∃ last earlier, after = last :: earlier := by
  induction ps generalizing captures with
  | nil =>
    cases h
    exact List.exists_cons_of_ne_nil (hsome.resolve_right (not_not.mpr rfl))
  | cons p ps ih =>
    rw [takes?_cons] at h
    obtain ⟨c, -, h⟩ := Option.bind_eq_some_iff.mp h
    have hlast := Branch.head?_record captures c
    exact ih h (Or.inl fun hnil => by rw [hnil] at hlast; cases hlast)

/-! ### All paths side by side -/

namespace Alternatives

variable {a : Alternatives}

/-- The fork after the phrases `ps`, which the alternatives at place `i` take one after the other: they begin with the
first one if there is no fork yet, and go on with the others. -/
def takeAll? (a : Alternatives) (i : Nat) : Option Fork → List Phrase → Option Fork
  | f?, [] => f?
  | f?, p :: ps => (a.take? i p f?).bind fun f => a.takeAll? i (some f) ps

/-- The branches of the paths that take all of `ps` by themselves, in the order of the paths. -/
def branches (a : Alternatives) (ps : List Phrase) : List Branch :=
  a.paths.zipIdx.filterMap fun x => (x.1.alone? ps).map (Branch.mk x.2)

/-- **A fork that goes on** consists of the branches that go on, each by itself. -/
theorem takeAll?_of (a : Alternatives) (i : Nat) (branches : List Branch) (ps : List Phrase) :
    ((Fork.of? a i branches).bind fun f => a.takeAll? i (some f) ps) =
      Fork.of? a i (branches.filterMap (Branch.takes? a.paths ps)) := by
  induction ps generalizing branches with
  | nil =>
    have hsame : branches.filterMap (Branch.takes? a.paths []) = branches := List.filterMap_some
    rw [hsame]
    cases Fork.of? a i branches <;> rfl
  | cons p ps ih =>
    cases branches with
    | nil => rfl
    | cons b rest =>
      -- the branches that take the first phrase are those of the fork from which the others are taken
      have hfirst : ((Fork.of? a i (b :: rest)).bind fun f => a.takeAll? i (some f) (p :: ps)) =
          (Fork.of? a i ((b :: rest).filterMap (·.take? a.paths p))).bind fun f => a.takeAll? i (some f) ps := rfl
      rw [hfirst, ih, List.filterMap_filterMap]
      exact congrArg (Fork.of? a i) (List.filterMap_congr fun b _ => Branch.takes?_cons.symm)

/-- **The fork of alternatives that take all of `ps`** consists of the paths that do so by themselves. -/
theorem takeAll?_cons (a : Alternatives) (i : Nat) (p : Phrase) (ps : List Phrase) :
    a.takeAll? i none (p :: ps) = Fork.of? a i (a.branches (p :: ps)) := by
  have hfirst : a.takeAll? i none (p :: ps) =
      (Fork.of? a i (a.paths.zipIdx.filterMap fun x => (x.1.take? p none).map fun c => ⟨x.2, [c]⟩)).bind fun f =>
        a.takeAll? i (some f) ps := rfl
  rw [hfirst, takeAll?_of, List.filterMap_filterMap]
  refine congrArg (Fork.of? a i) (List.filterMap_congr fun x hx => ?_)
  have hpath : a.paths[x.2]? = some x.1 := List.mk_mem_zipIdx_iff_getElem?.mp hx
  rw [Option.bind_map, Path.alone?, Path.takes?_cons, Option.map_bind]
  exact congrArg (Option.bind _) (funext fun c => Branch.takes?_eq hpath [c] ps)

theorem mem_branches {b : Branch} : b ∈ a.branches ps ↔
    ∃ path, a.paths[b.path]? = some path ∧ path.alone? ps = some b.captures := by
  unfold branches
  rw [List.mem_filterMap]
  constructor
  · rintro ⟨⟨path, k⟩, hmem, hb⟩
    obtain ⟨captures, hcaptures, rfl⟩ := Option.map_eq_some_iff.mp hb
    exact ⟨path, List.mk_mem_zipIdx_iff_getElem?.mp hmem, hcaptures⟩
  · rintro ⟨path, hpath, hcaptures⟩
    exact ⟨(path, b.path), List.mk_mem_zipIdx_iff_getElem?.mpr hpath, by rw [hcaptures]; rfl⟩

/-- What some branch has is what some path has that takes all phrases by itself. -/
theorem any_branches {test : Branch → Bool} {P : Path → Capture → Prop}
    (htest : ∀ {b path last earlier}, a.paths[b.path]? = some path → b.captures = last :: earlier →
      (test b = true ↔ P path last)) :
    (a.branches (p :: ps)).any test = true ↔
      ∃ path ∈ a.paths, ∃ last earlier, path.alone? (p :: ps) = some (last :: earlier) ∧ P path last := by
  rw [List.any_eq_true]
  constructor
  · rintro ⟨b, hb, hholds⟩
    obtain ⟨path, hpath, hcaptures⟩ := mem_branches.mp hb
    obtain ⟨last, earlier, hlast⟩ := Path.exists_last hcaptures (Or.inr (List.cons_ne_nil p ps))
    rw [hlast] at hcaptures
    exact ⟨path, List.mem_of_getElem? hpath, last, earlier, hcaptures, (htest hpath hlast).mp hholds⟩
  · rintro ⟨path, hmem, last, earlier, hcaptures, hholds⟩
    obtain ⟨k, hpath⟩ := List.mem_iff_getElem?.mp hmem
    exact ⟨⟨k, last :: earlier⟩, mem_branches.mpr ⟨path, hpath, hcaptures⟩, (htest hpath rfl).mpr hholds⟩

/-- **Paths that are followed side by side are followed each by itself.**  Alternatives take the phrases `p :: ps` one
after the other just if one of their paths takes all of them by itself.  Then the fork has just these paths for its
branches, in the order of their declaration, each with what the path has taken by itself.  It is satisfied if in one of
them all parts after the latest capture may be left out, and in a text if the latest capture of one of them is. -/
theorem side_by_side (a : Alternatives) (i : Nat) (p : Phrase) (ps : List Phrase) :
    ((a.takeAll? i none (p :: ps)).isSome = true ↔ ∃ path ∈ a.paths, (path.alone? (p :: ps)).isSome = true) ∧
      ∀ f, a.takeAll? i none (p :: ps) = some f →
        f.part = i ∧
        f.branches = a.paths.zipIdx.filterMap (fun x => (x.1.alone? (p :: ps)).map (Branch.mk x.2)) ∧
        (f.satisfied = true ↔ ∃ path ∈ a.paths, ∃ last earlier, path.alone? (p :: ps) = some (last :: earlier) ∧
          ∀ part ∈ path.drop (last.part + 1), part.isOptional = true) ∧
        (f.inText = true ↔ ∃ path ∈ a.paths, ∃ last earlier, path.alone? (p :: ps) = some (last :: earlier) ∧
          last.inText = true) := by
  rw [takeAll?_cons]
  refine ⟨?_, fun f hf => ?_⟩
  · rw [Fork.of?_isSome]
    constructor
    · rintro ⟨b, hb⟩
      obtain ⟨path, hpath, hcaptures⟩ := mem_branches.mp hb
      exact ⟨path, List.mem_of_getElem? hpath, by rw [hcaptures]; rfl⟩
    · rintro ⟨path, hmem, hsome⟩
      obtain ⟨k, hpath⟩ := List.mem_iff_getElem?.mp hmem
      obtain ⟨captures, hcaptures⟩ := Option.isSome_iff_exists.mp hsome
      exact ⟨⟨k, captures⟩, mem_branches.mpr ⟨path, hpath, hcaptures⟩⟩
  · obtain ⟨-, rfl⟩ := Fork.of?_eq_some hf
    refine ⟨rfl, rfl, any_branches fun {b path last earlier} hpath hlast => ?_,
      any_branches fun {b path last earlier} _ hlast => ?_⟩
    · simp [Branch.isSatisfied, hpath, Branch.last?, hlast, restOptional]
    · simp [Branch.inText, Branch.last?, hlast]

end Alternatives

namespace Paired

/-- One word and then another, both in any order, or a name and a number. -/
def either : Alternatives where
  paths := [[.keyword "a", .keyword "b"], [.modifiers { phrases := ["a", "b"] }], [.identifier "name", .number "value"]]

def first : Phrase := .read .word .start "a"

def second : Phrase := .read .word (Cursor.start.advanceOver ['a', ' ']) "b"

/-- Both words leave two of the three paths: one with a capture for each word, one with a capture of both. -/
theorem side_by_side_words : ∃ f, either.takeAll? 0 none [first, second] = some f ∧
    f.branches.map (fun b => (b.path, b.captures.map Capture.values)) = [(0, [["b"], ["a"]]), (1, [["a", "b"]])] ∧
    f.satisfied = true ∧ f.inText = false := by
  obtain ⟨hsome, hfork⟩ := either.side_by_side 0 first [second]
  have hwords : Path.alone? [.keyword "a", .keyword "b"] [first, second] =
      some [{ Capture.ofPhrase 1 second with finished := true }, { Capture.ofPhrase 0 first with finished := true }] := by
    decide
  obtain ⟨f, hf⟩ := Option.isSome_iff_exists.mp (hsome.mpr ⟨_, List.mem_cons_self, by rw [hwords]; rfl⟩)
  obtain ⟨-, hbranches, hsatisfied, htext⟩ := hfork f hf
  refine ⟨f, hf, by rw [hbranches]; decide, hsatisfied.mpr ⟨_, List.mem_cons_self, _, _, hwords, ?_⟩, ?_⟩
  · simp [Capture.ofPhrase]
  · have hclosed : ∀ path ∈ either.paths, ∀ captures, path.alone? [first, second] = some captures →
        captures.any Capture.inText = false := by decide
    by_contra hin
    obtain ⟨path, hmem, last, earlier, halone, hlast⟩ := htext.mp (by simpa using hin)
    have hnone := hclosed path hmem _ halone
    simp [hlast] at hnone

end Paired

end PhraseTree
