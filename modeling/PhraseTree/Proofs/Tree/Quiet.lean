import PhraseTree.Proofs.Tree.Shift

/-!
# Trees in which nothing waits to be read again

A text that gives its closing phrase back keeps the phrase until it is read again.  An entry is *quiet* if none of its
captures keeps one.

* `Entry.Quiet e`, `Node.Quiet n` — nothing waits in the entry, nothing waits in the instance;
* `Node.Answers.settles`: where the latest entry gives way to another, only the latest captures of that one can wait, and
  only if a text was open;
* `Tree.Takes.quiet`: where no text is open, a tree in which nothing waits takes a phrase and still nothing waits;
* `Tree.Takes.quiet_settle`, `Tree.Takes.quiet_of_toReread?`: where one is, nothing waits after it was left, and nothing
  has to be left if nothing is to be read again.
-/

namespace PhraseTree

variable {g : Grammar} {p : Phrase}

/-! ### Entries -/

/-- **Nothing of the entry waits to be read again.** -/
def Entry.Quiet (e : Entry) : Prop := ∀ c ∈ e.captures, c.handBack? = none

/-- **Nothing of the instance waits to be read again.** -/
def Node.Quiet (n : Node) : Prop := ∀ e ∈ n.entries, e.Quiet

namespace Entry

theorem quiet_capture {c : Capture} : (Entry.capture c).Quiet ↔ c.handBack? = none := by
  simp [Quiet, captures]

theorem quiet_child (x : Child) : (Entry.child x).Quiet := fun _ hc => absurd hc List.not_mem_nil

theorem quiet_fork {f : Fork} : (Entry.fork f).Quiet ↔ ∀ b ∈ f.branches, ∀ c ∈ b.captures, c.handBack? = none := by
  simp only [Quiet, captures, List.mem_flatMap]
  exact ⟨fun h b hb c hc => h c ⟨b, hb, hc⟩, fun h c ⟨b, hb, hc⟩ => h b hb c hc⟩

end Entry

theorem SimplePart.handBack?_of_resume? {part : SimplePart} {c c' : Capture} (h : part.resume? p c = some c')
    (hin : c.inText = false) : c'.handBack? = c.handBack? := by
  cases part with
  | keyword | identifier | number => cases h
  | modifiers m =>
    rw [(Modifiers.resume?_cases h).2.2]
    rfl
  | text t =>
    rw [(TextPart.resume?_cases h).1] at hin
    cases hin

theorem Path.handBack?_of_take? {path : Path} {last? : Option Capture} {c : Capture}
    (h : path.take? p last? = some c) (hin : ∀ last ∈ last?, last.inText = false ∧ last.handBack? = none) :
    c.handBack? = none := by
  rcases Path.take?_cases h with ⟨last, part, hlast, -, -, hresume⟩ | ⟨-, i, part, -, -, -, -, -, hbegin⟩
  · obtain ⟨hclosed, hnone⟩ := hin last hlast
    rw [SimplePart.handBack?_of_resume? hresume hclosed, hnone]
  · exact (SimplePart.begin?_spec hbegin).2.2.2.1

/-- A branch that is left keeps nothing in its latest capture. -/
theorem Branch.handBack?_of_mem_settled {b : Branch} {c : Capture} (hc : c ∈ b.settled.captures) :
    c.handBack? = none ∨ c ∈ b.captures.tail := by
  unfold Branch.settled at hc
  rcases hcaptures : b.captures with _ | ⟨last, earlier⟩
  · simp [hcaptures] at hc
  · simp only [hcaptures] at hc
    rcases List.mem_cons.mp hc with rfl | hc
    · exact Or.inl rfl
    · exact Or.inr hc

theorem Entry.Quiet.settled {e : Entry} (h : e.Quiet) : e.settled.Quiet := by
  cases e with
  | capture c => exact quiet_capture.mpr rfl
  | child x => exact h
  | fork f =>
    refine quiet_fork.mpr fun b' hb' c hc => ?_
    obtain ⟨b, hb, rfl⟩ := List.mem_map.mp hb'
    rcases Branch.handBack?_of_mem_settled hc with hnone | hmem
    · exact hnone
    · exact quiet_fork.mp h b hb c (List.mem_of_mem_tail hmem)

theorem Grows.quiet {parts : List (Part RuleId)} {i : Nat} {growth : Growth} (h : Grows g p parts i growth)
    (base : NodeId) : (growth.entry base).Quiet := by
  cases h with
  | capture hle hskip hat hbegin => exact Entry.quiet_capture.mpr (SimplePart.begin?_spec hbegin).2.2.2.1
  | fork hle hskip hat hbegin =>
    refine Entry.quiet_fork.mpr fun b hb c hc => ?_
    obtain ⟨path, d, hpath, htake, hcaptures⟩ := (Alternatives.begin?_spec hbegin).2 b hb
    rw [hcaptures, List.mem_singleton] at hc
    rw [hc]
    exact Path.handBack?_of_take? htake (by simp)
  | child => exact Entry.quiet_child _

theorem Branch.record_eq_cons (captures : List Capture) (c : Capture) :
    ∃ rest, Branch.record captures c = c :: rest ∧ ∀ d ∈ rest, d ∈ captures := by
  unfold Branch.record
  rcases captures with _ | ⟨last, earlier⟩
  · exact ⟨[], rfl, by simp⟩
  · by_cases hsame : last.part = c.part
    · exact ⟨earlier, by simp [hsame], fun d hd => List.mem_cons_of_mem _ hd⟩
    · exact ⟨last :: earlier, by simp [hsame], fun d hd => hd⟩

/-- **Every branch that goes on has a new capture in front of old ones.** -/
theorem Alternatives.branch_of_resume? {a : Alternatives} {i : Nat} {f f' : Fork} {b' : Branch}
    (h : a.resume? i p f = some f') (hb' : b' ∈ f'.branches) :
    ∃ b ∈ f.branches, ∃ (path : Path) (c : Capture) (rest : List Capture),
      b'.captures = c :: rest ∧ path.take? p b.last? = some c ∧ ∀ d ∈ rest, d ∈ b.captures := by
  obtain ⟨b, hb, hgoes⟩ := (Alternatives.resume?_spec h).2 b' hb'
  obtain ⟨path, c, -, htake, rfl⟩ := Branch.take?_eq_some hgoes
  obtain ⟨rest, hrecord, hrest⟩ := Branch.record_eq_cons b.captures c
  exact ⟨b, hb, path, c, rest, hrecord, htake, hrest⟩

/-- What an alternative keeps waits in its latest capture alone, if nothing waited before. -/
theorem Alternatives.quiet_of_resume? {a : Alternatives} {i : Nat} {f f' : Fork} (h : a.resume? i p f = some f')
    (hq : (Entry.fork f).Quiet) (hlatest : ∀ b' ∈ f'.branches, ∀ c ∈ b'.last?, c.handBack? = none) :
    (Entry.fork f').Quiet := by
  refine Entry.quiet_fork.mpr fun b' hb' c hc => ?_
  obtain ⟨b, hb, path, d, rest, hcaptures, -, hrest⟩ := Alternatives.branch_of_resume? h hb'
  rw [hcaptures] at hc
  rcases List.mem_cons.mp hc with rfl | hc
  · exact hlatest b' hb' c (by simp [Branch.last?, hcaptures])
  · exact Entry.quiet_fork.mp hq b hb c (hrest c hc)

/-- **What gives way to what.**  Only the latest captures of the new entry can wait, and only if a text was open. -/
theorem Node.Answers.settles {n : Node} {e : Entry} (h : n.Answers g p (.replace e)) (hq : n.Quiet) :
    e.settled.Quiet ∧ (e.toReread? = none → e.Quiet) ∧ (n.inText = false → e.Quiet) := by
  have hopen : ∀ {last : Entry}, n.last? = some last → n.inText = false → last.inText = false := by
    intro last hlast hin
    rwa [Node.inText, hlast] at hin
  have hnone : ∀ {c : Capture}, c.toReread? = none → c.handBack? = none := Option.map_eq_none_iff.mp
  cases h with
  | @capture c c' part hlast hfin hat hresume =>
    have hold : c.handBack? = none := Entry.quiet_capture.mp (hq _ (List.mem_of_mem_head? hlast))
    refine ⟨Entry.quiet_capture.mpr rfl, fun hback => Entry.quiet_capture.mpr (hnone hback), fun hin => ?_⟩
    rw [Entry.quiet_capture, SimplePart.handBack?_of_resume? hresume (hopen hlast hin), hold]
  | @fork f f' a hlast hat hresume =>
    have hold : (Entry.fork f).Quiet := hq _ (List.mem_of_mem_head? hlast)
    refine ⟨?_, ?_, ?_⟩
    · refine Entry.quiet_fork.mpr fun b'' hb'' c hc => ?_
      obtain ⟨b', hb', rfl⟩ := List.mem_map.mp hb''
      obtain ⟨b, hb, path, d, rest, hcaptures, -, hrest⟩ := Alternatives.branch_of_resume? hresume hb'
      rcases Branch.handBack?_of_mem_settled hc with hnone | hmem
      · exact hnone
      · rw [hcaptures, List.tail_cons] at hmem
        exact Entry.quiet_fork.mp hold b hb c (hrest c hmem)
    · intro hback
      refine Alternatives.quiet_of_resume? hresume hold fun b' hb' c hc => hnone ?_
      have hb : b'.toReread? = none := List.findSome?_eq_none_iff.mp hback b' hb'
      rwa [Branch.toReread?, hc] at hb
    · intro hin
      refine Alternatives.quiet_of_resume? hresume hold fun b' hb' c hc => ?_
      obtain ⟨b, hb, path, d, rest, hcaptures, htake, -⟩ := Alternatives.branch_of_resume? hresume hb'
      rw [Branch.last?, hcaptures, List.head?_cons, Option.mem_some_iff] at hc
      subst hc
      refine Path.handBack?_of_take? htake fun last hbl => ⟨?_, ?_⟩
      · have hclosed := List.any_eq_false.mp (hopen hlast hin) b hb
        rw [Branch.inText, hbl] at hclosed
        simpa using hclosed
      · exact Entry.quiet_fork.mp hold b hb last (List.mem_of_mem_head? hbl)
  | separator => exact ⟨Entry.quiet_child _, fun _ => Entry.quiet_child _, fun _ => Entry.quiet_child _⟩

/-! ### Trees -/

namespace Tree

variable {t t' : Tree} {active taker : NodeId}

theorem root_quiet : root.All fun _ n => n.Quiet := by
  intro id n hn e he
  rw [node?_root hn] at he
  cases he

/-- An instance of a tree that took a phrase is quiet, but for the latest entry of the taker. -/
theorem Takes.quiet_or_replaced (h : t.Takes g active p t' taker) (hq : t.All fun _ n => n.Quiet) :
    t'.All fun id n => n.Quiet ∨
      ∃ m e, t.node? id = some m ∧ m.Answers g p (.replace e) ∧ id = taker ∧ n = m.replaceLast e := by
  intro id n hn
  cases h.arises hn with
  | kept hold => exact Or.inl (hq id n hold)
  | replaced hold ha htaker => exact Or.inr ⟨_, _, hold, ha, htaker.symm, rfl⟩
  | grown hold ha htaker =>
    refine Or.inl fun e he => ?_
    obtain ⟨i, hgrows⟩ := ha.grows
    rcases List.mem_cons.mp he with rfl | he
    · exact hgrows.quiet _
    · exact hq id _ hold e he
  | adopted hold =>
    have hquiet := hq id _ hold
    exact Or.inl hquiet
  | made hgrows htaker =>
    refine Or.inl fun e he => ?_
    rw [List.mem_singleton.mp he]
    exact hgrows.quiet _

theorem quiet_replaceLast {n : Node} {e : Entry} (hq : n.Quiet) (he : e.Quiet) : (n.replaceLast e).Quiet := by
  intro x hx
  rcases List.mem_cons.mp hx with rfl | hx
  · exact he
  · exact hq x (List.mem_of_mem_tail hx)

/-- **Where no text is open, nothing comes to wait.** -/
theorem Takes.quiet (h : t.Takes g active p t' taker) (ho : t.OpenOnlyAt active) (hin : t.inText active = false)
    (hq : t.All fun _ n => n.Quiet) : t'.All fun _ n => n.Quiet := by
  intro id n hn
  rcases h.quiet_or_replaced hq id n hn with hquiet | ⟨m, e, hm, ha, rfl, rfl⟩
  · exact hquiet
  · refine quiet_replaceLast (hq _ m hm) ((ha.settles (hq _ m hm)).2.2 ?_)
    by_contra hopen
    have hopen : m.inText = true := by simpa using hopen
    obtain rfl := ho _ m hm hopen
    simp [inText, hm, hopen] at hin

/-- **What waits is with the latest entry of the instance that took the phrase**, and does not once it was left. -/
theorem Takes.quiet_settle (h : t.Takes g active p t' taker) (hq : t.All fun _ n => n.Quiet) :
    (t'.settle taker).All fun _ n => n.Quiet := by
  intro id n hn
  rcases node?_modify_cases hn with ⟨hne, hold⟩ | ⟨n', rfl, hn', rfl⟩
  · rcases h.quiet_or_replaced hq id n hold with hquiet | ⟨_, _, _, _, hid, _⟩
    · exact hquiet
    · exact absurd hid hne
  · rcases h.quiet_or_replaced hq _ n' hn' with hquiet | ⟨m, e, hm, ha, -, rfl⟩
    · intro e he
      rcases hentries : n'.entries with _ | ⟨last, rest⟩
      · simp [hentries] at he
      · simp only [hentries, List.modifyHead_cons] at he
        rcases List.mem_cons.mp he with rfl | he
        · exact (hquiet last (by simp [hentries])).settled
        · exact hquiet e (by simp [hentries, he])
    · show (m.replaceLast e.settled).Quiet
      exact quiet_replaceLast (hq _ m hm) (ha.settles (hq _ m hm)).1

theorem Takes.quiet_of_toReread? (h : t.Takes g active p t' taker) (hq : t.All fun _ n => n.Quiet)
    (hback : t'.toReread? taker = none) : t'.All fun _ n => n.Quiet := by
  intro id n hn
  rcases h.quiet_or_replaced hq id n hn with hquiet | ⟨m, e, hm, ha, rfl, rfl⟩
  · exact hquiet
  · have hold := hq _ m hm
    refine quiet_replaceLast hold ((ha.settles hold).2.1 ?_)
    rw [toReread?, hn] at hback
    exact hback

end Tree

end PhraseTree
