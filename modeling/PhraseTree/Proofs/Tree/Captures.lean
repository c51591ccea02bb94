import PhraseTree.Proofs.Tree.Conformity

/-!
# Where captures come from

`Tree.Has g keep t part c` says that some instance of the tree has the capture `c` of the simple part `part`, by itself
or in a branch along a path that `keep` allows.

* `Tree.Takes.comes`: a capture of a tree that took a phrase is an old one and closed, or begins with the phrase, or is
  an old one that goes on with it (`SimplePart.Comes`);
* `Tree.Takes.inText`: only the instance that took the phrase can be in an open text;
* `Tree.Takes.rereads`: what is to be read again comes from a text that the phrase closed;
* `Tree.Takes.resumes`: an open text takes every phrase.
-/

namespace PhraseTree

variable {g : Grammar} {p : Phrase} {keep : Path → Prop} {part : SimplePart} {c : Capture}

/-- The path has a text. -/
def Path.HasText (path : Path) : Prop := ∃ t, .text t ∈ path

/-- The path has a text that gives its closing phrase back. -/
def Path.HandsBack (path : Path) : Prop := ∃ t, .text t ∈ path ∧ t.handsBack = true

instance (path : Path) : Decidable path.HasText :=
  decidable_of_iff (path.any fun part => part matches .text _) <| by
    simp only [Path.HasText, List.any_eq_true]
    constructor
    · rintro ⟨part, hmem, hpart⟩
      cases part with
      | text t => exact ⟨t, hmem⟩
      | _ => cases hpart
    · exact fun ⟨t, hmem⟩ => ⟨_, hmem, rfl⟩

instance (path : Path) : Decidable path.HandsBack :=
  decidable_of_iff (path.any fun | .text t => t.handsBack | _ => false) <| by
    simp only [Path.HandsBack, List.any_eq_true]
    constructor
    · rintro ⟨part, hmem, hpart⟩
      cases part with
      | text t => exact ⟨t, hmem, hpart⟩
      | _ => cases hpart
    · exact fun ⟨t, hmem, ht⟩ => ⟨_, hmem, ht⟩

/-- The part is a text, or alternatives with one. -/
def Part.HasText : Part RuleId → Prop
  | .simple part => Path.HasText [part]
  | .alternatives a => ∃ path ∈ a.paths, path.HasText
  | .choice _ => False

instance (part : Part RuleId) : Decidable part.HasText :=
  match part with
  | .simple part => inferInstanceAs (Decidable (Path.HasText [part]))
  | .alternatives a => inferInstanceAs (Decidable (∃ path ∈ a.paths, path.HasText))
  | .choice _ => inferInstanceAs (Decidable False)

/-- **How a capture comes out of a phrase**, where the captures before it were `old`. -/
inductive SimplePart.Comes (part : SimplePart) (p : Phrase) (old : Capture → Prop) : Capture → Prop
  | stays {c : Capture} (h : old c) (hin : c.inText = false) : part.Comes p old c
  | begins {i : Nat} {c : Capture} (h : part.begin? i p = some c) : part.Comes p old c
  | goesOn {c c' : Capture} (h : old c) (hresume : part.resume? p c = some c') : part.Comes p old c'

theorem SimplePart.Comes.mono {old old' : Capture → Prop} (h : part.Comes p old c) (hold : ∀ c, old c → old' c) :
    part.Comes p old' c := by
  cases h with
  | stays h hin => exact .stays (hold _ h) hin
  | begins h => exact .begins h
  | goesOn h hresume => exact .goesOn (hold _ h) hresume

/-! ### Captures of a branch -/

section Branch

variable {path : Path} {captures : List Capture} {c' : Capture}

theorem Path.Progress.head?_of_inText (h : path.Progress captures) (hc : c ∈ captures) (hin : c.inText = true) :
    captures.head? = some c := by
  cases captures with
  | nil => cases hc
  | cons d rest =>
    rcases List.mem_cons.mp hc with rfl | hc
    · rfl
    · rw [h.inText_tail c hc] at hin
      cases hin

theorem Path.Progress.comes (h : path.Progress captures) (ht : path.take? p captures.head? = some c')
    (hc : c ∈ Branch.record captures c') (hat : path[c.part]? = some part) :
    part.Comes p (fun x => x ∈ captures ∧ path[x.part]? = some part) c := by
  obtain ⟨d, rest, part', rfl, hat', hcases⟩ := h.take?_cases ht
  have hrest : c ∈ rest → part.Comes p (fun x => x ∈ d :: rest ∧ path[x.part]? = some part) c := fun hmem =>
    .stays ⟨by simp [hmem], hat⟩ (h.inText_tail c hmem)
  rcases hcases with ⟨hrec, hpart, hfin, hresume⟩ | ⟨hrec, hin, hlt, hskip, hbegin⟩
  · rw [hrec] at hc
    rcases List.mem_cons.mp hc with rfl | hc
    · cases hat.symm.trans hat'
      exact .goesOn ⟨by simp, by rw [← hpart]; exact hat⟩ hresume
    · exact hrest hc
  · rw [hrec] at hc
    rcases List.mem_cons.mp hc with rfl | hc
    · cases hat.symm.trans hat'
      exact .begins hbegin
    · rcases List.mem_cons.mp hc with rfl | hc
      · exact .stays ⟨by simp, hat⟩ hin
      · exact hrest hc

/-- What a branch gives back is the closing phrase of a text that the phrase closed. -/
theorem Path.Progress.rereads {phrase : String} (h : path.Progress captures)
    (ht : path.take? p captures.head? = some c') (hback : c'.handBack? = some phrase) :
    ∃ t c, c ∈ captures ∧ path[c.part]? = some (.text t) ∧ path[c'.part]? = some (.text t) ∧ t.handsBack = true ∧
      t.resume? p c = some c' := by
  obtain ⟨d, rest, part, rfl, hat, ⟨hrec, hpart, hfin, hresume⟩ | ⟨-, -, -, -, hbegin⟩⟩ := h.take?_cases ht
  · obtain ⟨part', hat', hholds⟩ := (h.record ht).holds c' (by simp [hrec])
    cases hat.symm.trans hat'
    obtain ⟨t, rfl, hgives, -⟩ := hholds.text_of_handBack hback
    exact ⟨t, d, by simp, by rw [← hpart]; exact hat, hat, hgives, hresume⟩
  · rw [(SimplePart.begin?_spec hbegin).2.2.2.1] at hback
    cases hback

end Branch

/-! ### Captures of an instance -/

/-- The captures of an entry. -/
inductive Entry.Has (parts : List (Part RuleId)) (keep : Path → Prop) : Entry → SimplePart → Capture → Prop
  | own {c : Capture} {part : SimplePart} (hat : parts[c.part]? = some (.simple part)) :
      Entry.Has parts keep (.capture c) part c
  | branch {f : Fork} {a : Alternatives} {b : Branch} {path : Path} {c : Capture} {part : SimplePart}
      (hat : parts[f.part]? = some (.alternatives a)) (hb : b ∈ f.branches) (hpath : a.paths[b.path]? = some path)
      (hkeep : keep path) (hc : c ∈ b.captures) (hpart : path[c.part]? = some part) :
      Entry.Has parts keep (.fork f) part c

/-- The captures of an instance. -/
def Node.Has (g : Grammar) (keep : Path → Prop) (n : Node) (part : SimplePart) (c : Capture) : Prop :=
  ∃ e ∈ n.entries, e.Has (g.parts n.rule) keep part c

/-- **The captures of a tree.** -/
def Tree.Has (g : Grammar) (keep : Path → Prop) (t : Tree) (part : SimplePart) (c : Capture) : Prop :=
  ∃ id n, t.node? id = some n ∧ n.Has g keep part c

theorem Tree.Has.mono {keep' : Path → Prop} {t : Tree} (h : t.Has g keep part c)
    (hkeep : ∀ path, keep path → keep' path) :
    t.Has g keep' part c := by
  obtain ⟨id, n, hn, e, he, hc⟩ := h
  refine ⟨id, n, hn, e, he, ?_⟩
  cases hc with
  | own hat => exact .own hat
  | branch hat hb hpath hk hc hpart => exact .branch hat hb hpath (hkeep _ hk) hc hpart

section Entry

variable {parts : List (Part RuleId)} {e : Entry} {i : Nat} {growth : Growth} {base : NodeId}

theorem Entry.Has.holds (h : e.Has parts keep part c) (he : e.Fits parts) : part.Holds c := by
  cases h with
  | own hat =>
    obtain ⟨part', hat', hc⟩ := he
    cases hat.symm.trans hat'
    exact hc
  | branch hat hb hpath hkeep hc hpart =>
    obtain ⟨a', hat', hf⟩ := he
    cases hat.symm.trans hat'
    obtain ⟨path', hpath', hprog⟩ := hf.progress _ hb
    cases hpath.symm.trans hpath'
    obtain ⟨part', hpart', hholds⟩ := hprog.holds c hc
    cases hpart.symm.trans hpart'
    exact hholds

theorem Entry.Has.inText (h : e.Has parts keep part c) (he : e.Fits parts) (hin : c.inText = true) :
    e.inText = true := by
  cases h with
  | own hat => exact hin
  | branch hat hb hpath hkeep hc hpart =>
    obtain ⟨a', hat', hf⟩ := he
    cases hat.symm.trans hat'
    obtain ⟨path', hpath', hprog⟩ := hf.progress _ hb
    have hhead := hprog.head?_of_inText hc hin
    exact List.any_eq_true.mpr ⟨_, hb, by simp [Branch.inText, Branch.last?, hhead, hin]⟩

/-- Only a part with a text can be open. -/
theorem Entry.Fits.hasText_of_inText (he : e.Fits parts) (hin : e.inText = true) :
    ∃ part, parts[e.part]? = some part ∧ part.HasText := by
  cases e with
  | child x => cases hin
  | capture c =>
    obtain ⟨part, hat, hholds⟩ := he
    obtain ⟨t, rfl⟩ := hholds.text_of_inText hin
    exact ⟨_, hat, t, List.mem_singleton_self _⟩
  | fork f =>
    obtain ⟨a, hat, hf⟩ := he
    obtain ⟨b, hb, hbin⟩ := List.any_eq_true.mp hin
    obtain ⟨c, hlast, hcin⟩ : ∃ c, b.last? = some c ∧ c.inText = true := by
      simpa [Branch.inText, Option.any_eq_true] using hbin
    obtain ⟨path, hpath, hprogress⟩ := hf.progress b hb
    obtain ⟨part, hpart, hholds⟩ := hprogress.holds c (List.mem_of_mem_head? hlast)
    obtain ⟨t, rfl⟩ := hholds.text_of_inText hcin
    exact ⟨_, hat, path, List.mem_of_getElem? hpath, t, List.mem_of_getElem? hpart⟩

/-- What a growth puts down begins with the phrase. -/
theorem Grows.begins (h : Grows g p parts i growth) (hc : (growth.entry base).Has parts keep part c) :
    ∃ j, part.begin? j p = some c := by
  cases h with
  | capture hle hskip hat hbegin =>
    cases hc with
    | own hat' =>
      cases hat.symm.trans hat'
      exact ⟨_, hbegin⟩
  | fork hle hskip hat hbegin =>
    cases hc with
    | branch hat' hb hpath hkeep hc hpart =>
      cases hat.symm.trans hat'
      obtain ⟨path', c', hpath', htake, hcs⟩ := (Alternatives.begin?_spec hbegin).2 _ hb
      cases hpath.symm.trans hpath'
      rw [hcs, List.mem_singleton] at hc
      subst hc
      obtain ⟨-, -, part', hat', hb⟩ := Path.begin?_spec htake List.drop_zero
      cases hpart.symm.trans hat'
      exact ⟨_, hb⟩
  | child hle hskip hat hmem hgrows => cases hc

end Entry

section Node

variable {n : Node} {e : Entry} {growth : Growth} {base : NodeId}

theorem Node.Has.holds (h : n.Has g keep part c) (hl : n.Legal g) : part.Holds c := by
  obtain ⟨e, he, hc⟩ := h
  exact hc.holds (hl.fits e he)

theorem Node.Has.inText (h : n.Has g keep part c) (hl : n.Legal g) (hin : c.inText = true) : n.inText = true := by
  obtain ⟨e, he, hc⟩ := h
  have hein := hc.inText (hl.fits e he) hin
  simp [Node.inText, hl.last?_of_inText he hein, hein]

theorem Node.Answers.inText_of_grow (h : n.Answers g p (.grow growth)) (hl : n.Legal g) : n.inText = false := by
  have hclosed : ∀ e ∈ n.entries, e.inText = false := (hl.grow h 0).inText_tail
  rcases hn : n.entries with _ | ⟨last, rest⟩
  · simp [Node.inText, Node.last?, hn]
  · simp [Node.inText, Node.last?, hn, hclosed last (by simp [hn])]

theorem Node.Answers.comes_grow (h : n.Answers g p (.grow growth)) (hl : n.Legal g)
    (hc : (n.push (growth.entry base)).Has g keep part c) : part.Comes p (n.Has g keep part) c := by
  have hl' := hl.grow h base
  obtain ⟨e, he, hc⟩ := hc
  rcases List.mem_cons.mp he with rfl | hmem
  · obtain ⟨i, hgrows⟩ := h.grows
    obtain ⟨j, hbegin⟩ := hgrows.begins hc
    exact .begins hbegin
  · refine .stays ⟨e, hmem, hc⟩ ?_
    by_contra hin
    have hein := hc.inText (hl'.fits e he) (by simpa using hin)
    rw [hl'.inText_tail e hmem] at hein
    cases hein

theorem Node.Answers.comes_replace (h : n.Answers g p (.replace e)) (hl : n.Legal g)
    (hc : (n.replaceLast e).Has g keep part c) : part.Comes p (n.Has g keep part) c := by
  obtain ⟨x, hx, hc⟩ := hc
  rcases List.mem_cons.mp hx with rfl | hmem
  · cases h with
    | capture hlast hfin hat hresume =>
      cases hc with
      | own hat' =>
        have hpart := SimplePart.resume?_part hresume
        rw [hpart] at hat'
        cases hat.symm.trans hat'
        exact .goesOn ⟨_, List.mem_of_mem_head? hlast, .own hat⟩ hresume
    | fork hlast hat hresume =>
      cases hc with
      | branch hat' hb hpath hkeep hc hpart =>
        obtain ⟨hfpart, hbranches⟩ := Alternatives.resume?_spec hresume
        rw [hfpart] at hat'
        cases hat.symm.trans hat'
        obtain ⟨b, hb₀, htake⟩ := hbranches _ hb
        obtain ⟨path, c', hpath', htake, rfl⟩ := Branch.take?_eq_some htake
        cases hpath.symm.trans hpath'
        have hmem := List.mem_of_mem_head? hlast
        obtain ⟨a', hat'', hf⟩ := hl.fits _ hmem
        cases hat.symm.trans hat''
        obtain ⟨path', hpath', hprog⟩ := hf.progress _ hb₀
        cases hpath.symm.trans hpath'
        exact (hprog.comes htake hc hpart).mono fun x hx => ⟨_, hmem, .branch hat hb₀ hpath hkeep hx.1 hx.2⟩
    | separator hlast hat hdue hsep => cases hc
  · have hmem' : x ∈ n.entries := List.mem_of_mem_tail hmem
    refine .stays ⟨x, hmem', hc⟩ ?_
    by_contra hin
    have hein := hc.inText (hl.fits x hmem') (by simpa using hin)
    rw [hl.inText_tail x hmem] at hein
    cases hein

/-- **What an instance gives back** is the closing phrase of a text that the phrase closed. -/
theorem Node.Answers.rereads {phrase : String} {start : Cursor} (h : n.Answers g p (.replace e)) (hl : n.Legal g)
    (hkeep : ∀ path : Path, path.HandsBack → keep path) (hback : e.toReread? = some (phrase, start)) :
    ∃ t c c', n.Has g keep (.text t) c ∧ (n.replaceLast e).Has g keep (.text t) c' ∧ t.resume? p c = some c' ∧
      c'.handBack? = some phrase ∧ c'.span.stop = start := by
  have hread : ∀ {c : Capture}, c.toReread? = some (phrase, start) → c.handBack? = some phrase ∧ c.span.stop = start := by
    intro c hc
    simpa [Capture.toReread?] using hc
  cases h with
  | @capture c c' part hlast hfin hat hresume =>
    obtain ⟨hphrase, hstart⟩ := hread hback
    have hpart := SimplePart.resume?_part hresume
    have hhas : (n.replaceLast (.capture c')).Has g keep part c' :=
      ⟨_, List.mem_cons_self, .own (by rw [hpart]; exact hat)⟩
    obtain ⟨t, rfl, -⟩ := (hhas.holds (hl.replace (.capture hlast hfin hat hresume))).text_of_handBack hphrase
    exact ⟨t, c, c', ⟨_, List.mem_of_mem_head? hlast, .own hat⟩, hhas, hresume, hphrase, hstart⟩
  | fork hlast hat hresume =>
    obtain ⟨b', hb', hback⟩ := List.exists_of_findSome?_eq_some hback
    obtain ⟨hfpart, hbranches⟩ := Alternatives.resume?_spec hresume
    obtain ⟨b, hb, htake'⟩ := hbranches _ hb'
    obtain ⟨path, c', hpath, htake, rfl⟩ := Branch.take?_eq_some htake'
    have hback : c'.toReread? = some (phrase, start) := by
      simpa [Branch.toReread?, Branch.last?, Branch.head?_record] using hback
    obtain ⟨hphrase, hstart⟩ := hread hback
    obtain ⟨a', hat', hf⟩ := hl.fits _ (List.mem_of_mem_head? hlast)
    cases hat.symm.trans hat'
    obtain ⟨path', hpath', hprog⟩ := hf.progress _ hb
    cases hpath.symm.trans hpath'
    obtain ⟨t, c, hc, hcat, hcat', hgives, hresume'⟩ := hprog.rereads htake hphrase
    have hkept : keep path := hkeep path ⟨t, List.mem_of_getElem? hcat, hgives⟩
    have hmem : c' ∈ Branch.record b.captures c' := List.mem_of_mem_head? (Branch.head?_record _ _)
    exact ⟨t, c, c', ⟨_, List.mem_of_mem_head? hlast, .branch hat hb hpath hkept hc hcat⟩,
      ⟨_, List.mem_cons_self, .branch (by rw [hfpart]; exact hat) hb' hpath hkept hmem hcat'⟩, hresume', hphrase,
      hstart⟩
  | separator hlast hat hdue hsep => cases hback

/-- **An open text takes every phrase** that the instance takes.  If it gives something back, so does the instance. -/
theorem Node.Answers.resumes {t : TextPart} (h : n.Answers g p (.replace e)) (hl : n.Legal g)
    (hc : n.Has g keep (.text t) c) (hin : c.inText = true) :
    ∃ c', t.resume? p c = some c' ∧ (n.replaceLast e).Has g keep (.text t) c' ∧
      (c'.toReread?.isSome = true → e.toReread?.isSome = true) := by
  obtain ⟨e₀, he₀, hc⟩ := hc
  have hlast₀ : n.last? = some e₀ := hl.last?_of_inText he₀ (hc.inText (hl.fits e₀ he₀) hin)
  cases h with
  | capture hlast hfin hat hresume =>
    cases hlast₀.symm.trans hlast
    cases hc with
    | own hat' =>
      cases hat'.symm.trans hat
      have hpart := SimplePart.resume?_part hresume
      exact ⟨_, hresume, ⟨_, List.mem_cons_self, .own (by rw [hpart]; exact hat)⟩, id⟩
  | fork hlast hat hresume =>
    cases hlast₀.symm.trans hlast
    cases hc with
    | @branch _ _ b path _ _ hat' hb hpath hkeep hmem hpart =>
      cases hat'.symm.trans hat
      obtain ⟨a', hat'', hf⟩ := hl.fits _ he₀
      cases hat'.symm.trans hat''
      obtain ⟨path', hpath', hprog⟩ := hf.progress b hb
      cases hpath.symm.trans hpath'
      obtain ⟨c', hc', htake⟩ := hprog.take?_of_inText (p := p) (hprog.head?_of_inText hmem hin) hpart hin
      have hb' : (⟨b.path, Branch.record b.captures c'⟩ : Branch) ∈ _ :=
        Alternatives.mem_resume? hresume hb (by simp [Branch.take?, Branch.last?, hpath, htake])
      have hhead := Branch.head?_record b.captures c'
      have hfpart := (Alternatives.resume?_spec hresume).1
      have hcpart := SimplePart.resume?_part hc'
      refine ⟨c', hc', ⟨_, List.mem_cons_self, .branch (by rw [hfpart]; exact hat) hb' hpath hkeep
        (List.mem_of_mem_head? hhead) (by rw [hcpart]; exact hpart)⟩, fun hback => ?_⟩
      refine List.findSome?_isSome_iff.mpr ⟨_, hb', ?_⟩
      simpa [Branch.toReread?, Branch.last?, hhead] using hback
  | separator hlast hat hdue hsep =>
    cases hlast₀.symm.trans hlast
    cases hc

end Node

/-! ### Captures of a tree -/

/-- **How an instance comes out of a phrase that the tree took.** -/
inductive Node.Arises (g : Grammar) (t : Tree) (active : NodeId) (p : Phrase) (taker id : NodeId) : Node → Prop
  /-- It is as before; if it is the active one, it refused the phrase. -/
  | kept {n : Node} (hn : t.node? id = some n) (hrefused : id = active → (n.offer g p).found? = none) :
      Arises g t active p taker id n
  /-- Its latest entry gave way. -/
  | replaced {n : Node} {e : Entry} (hn : t.node? id = some n) (ha : n.Answers g p (.replace e)) (htaker : taker = id) :
      Arises g t active p taker id (n.replaceLast e)
  /-- It got a further entry. -/
  | grown {n : Node} {growth : Growth} {base : NodeId} (hn : t.node? id = some n) (ha : n.Answers g p (.grow growth))
      (htaker : growth.depth = 0 → taker = id) : Arises g t active p taker id (n.push (growth.entry base))
  /-- A global rule took the phrase on its behalf. -/
  | adopted {n : Node} {x : Child} (hn : t.node? id = some n) (hrefused : (n.offer g p).found? = none)
      (hid : id = active) : Arises g t active p taker id (n.pushGlobal x)
  /-- It is new. -/
  | made {rule : RuleId} {parent? : Option NodeId} {inner : Growth} {base : NodeId}
      (hgrows : Grows g p (g.parts rule) 0 inner) (htaker : inner.depth = 0 → taker = id) :
      Arises g t active p taker id ⟨rule, parent?, [inner.entry base], []⟩

section Tree

variable {t t' : Tree} {active taker id : NodeId} {n : Node}

theorem Tree.Takes.arises (h : t.Takes g active p t' taker) (hn : t'.node? id = some n) :
    n.Arises g t active p taker id := by
  have hmade : ∀ {changed growth parts i k n}, Grows g p parts i growth →
      (growth.nodes changed t.size)[k]? = some n →
      Node.Arises g t active p (growth.taker changed t.size) (t.size + k) n := by
    intro changed growth parts i k n hgrows hk
    obtain ⟨rule, inner, rfl, hdepth, -, hinner⟩ := Growth.nodes_getElem? hk
    refine .made (hinner g p parts i hgrows) fun hzero => ?_
    have hlast : growth.depth - 1 = k := by omega
    rw [Growth.taker_eq, if_neg (by omega), hlast]
  have happly : ∀ {changed m change}, t.node? changed = some m → m.Answers g p change →
      (active ≠ changed → (t.offer g p active).found? = none) → (t.apply changed change).1.node? id = some n →
      n.Arises g t active p (t.apply changed change).2 id := by
    intro changed m change hm ha hrefused hn
    have hkept : id ≠ changed → t.node? id = some n → n.Arises g t active p (t.apply changed change).2 id := by
      intro hne hold
      refine .kept hold fun hid => ?_
      have := hrefused (by rw [← hid]; exact hne)
      rwa [Tree.offer, ← hid, hold] at this
    cases change with
    | replace e =>
      rcases node?_modify_cases hn with ⟨hne, hold⟩ | ⟨m', rfl, hm', rfl⟩
      · exact hkept hne hold
      · cases hm.symm.trans hm'
        exact .replaced hm ha rfl
    | grow growth =>
      obtain ⟨i, hgrows⟩ := ha.grows
      rcases node?_extend_cases hn with ⟨hne, hold⟩ | ⟨m', rfl, hm', rfl⟩ | ⟨k, rfl, hk⟩
      · exact hkept hne hold
      · cases hm.symm.trans hm'
        refine .grown hm ha fun hzero => ?_
        simp only [Tree.apply, Growth.taker_eq, if_pos hzero]
      · exact hmade hgrows hk
  cases h with
  | own hm ha => exact happly hm ha (fun hne => absurd rfl hne) hn
  | ancestor hown hid hm ha => exact happly hm ha (fun _ => hown) hn
  | global hown hmem hgrows =>
    have hline : Grows g p [.choice g.global] 0 (.child (g.global.slot 0) _ _) :=
      .child le_rfl Skips.refl rfl hmem hgrows
    rcases node?_extend_cases hn with ⟨hne, hold⟩ | ⟨m, rfl, hm, rfl⟩ | ⟨k, rfl, hk⟩
    · exact .kept hold fun hid => absurd hid hne
    · exact .adopted hm (by rwa [Tree.offer, hm] at hown) rfl
    · exact hmade hline hk

/-- No instance but `active` is in an open text. -/
def Tree.OpenOnlyAt (t : Tree) (active : NodeId) : Prop := t.All fun id n => n.inText = true → id = active

theorem Tree.root_openOnlyAt : Tree.root.OpenOnlyAt 0 := by
  intro id n hn hin
  rw [node?_root hn] at hin
  cases hin

theorem Tree.not_has_root : ¬ Tree.root.Has g keep part c := by
  rintro ⟨id, n, hn, e, he, -⟩
  rw [node?_root hn] at he
  cases he

theorem Node.Legal.inText_of_refused (hl : n.Legal g) (h : (n.offer g p).found? = none) : n.inText = false := by
  by_contra hin
  obtain ⟨e, he⟩ := hl.offer_of_inText (p := p) (by simpa using hin)
  rw [he] at h
  cases h

/-- **Only the instance that took the phrase can be in an open text.** -/
theorem Tree.Takes.openOnlyAt (h : t.Takes g active p t' taker) (hc : t.Conforms g) (ho : t.OpenOnlyAt active) :
    t'.OpenOnlyAt taker := by
  intro id n hn hin
  have hgrowth : ∀ {growth : Growth} {base}, (growth.entry base).inText = true → growth.depth = 0 := by
    intro growth base hin
    cases growth with
    | capture | fork => rfl
    | child => cases hin
  cases h.arises hn with
  | kept hold hrefused =>
    have hclosed := (hc.legal id n hold).inText_of_refused (hrefused (ho id n hold hin))
    rw [hin] at hclosed
    cases hclosed
  | replaced hold ha htaker => exact htaker.symm
  | grown hold ha htaker => exact (htaker (hgrowth hin)).symm
  | @adopted m x hold hrefused hid =>
    have hclosed : m.inText = false := (hc.legal id m hold).inText_of_refused hrefused
    have hopen : m.inText = true := hin
    rw [hopen] at hclosed
    cases hclosed
  | made hgrows htaker => exact (htaker (hgrowth hin)).symm

theorem Tree.Has.holds (h : t.Has g keep part c) (hc : t.Conforms g) : part.Holds c := by
  obtain ⟨id, n, hn, hhas⟩ := h
  exact hhas.holds (hc.legal id n hn)

theorem Tree.Has.inText (h : t.Has g keep part c) (hc : t.Conforms g) (ho : t.OpenOnlyAt active)
    (hin : c.inText = true) : t.inText active = true := by
  obtain ⟨id, n, hn, hhas⟩ := h
  have hnin := hhas.inText (hc.legal id n hn) hin
  rw [← ho id n hn hnin]
  simp [Tree.inText, hn, hnin]

/-- **Where the captures of a tree come from** that took a phrase. -/
theorem Tree.Takes.comes (h : t.Takes g active p t' taker) (hc : t.Conforms g) (ho : t.OpenOnlyAt active)
    (hhas : t'.Has g keep part c) : part.Comes p (t.Has g keep part) c := by
  obtain ⟨id, n, hn, hhas⟩ := hhas
  have hstays : ∀ {m : Node}, t.node? id = some m → m.inText = false → m.Has g keep part c →
      part.Comes p (t.Has g keep part) c := by
    intro m hm hin hhas
    refine .stays ⟨id, m, hm, hhas⟩ ?_
    by_contra hcin
    rw [hhas.inText (hc.legal id m hm) (by simpa using hcin)] at hin
    cases hin
  cases h.arises hn with
  | kept hold hrefused =>
    have hl := hc.legal id n hold
    by_cases hin : n.inText = true
    · exact hstays hold (hl.inText_of_refused (hrefused (ho id n hold hin))) hhas
    · exact hstays hold (by simpa using hin) hhas
  | replaced hold ha htaker =>
    exact (ha.comes_replace (hc.legal _ _ hold) hhas).mono fun x hx => ⟨id, _, hold, hx⟩
  | grown hold ha htaker =>
    exact (ha.comes_grow (hc.legal _ _ hold) hhas).mono fun x hx => ⟨id, _, hold, hx⟩
  | adopted hold hrefused hid => exact hstays hold ((hc.legal _ _ hold).inText_of_refused hrefused) hhas
  | made hgrows htaker =>
    obtain ⟨e, he, hhas⟩ := hhas
    rw [List.mem_singleton] at he
    subst he
    obtain ⟨j, hbegin⟩ := hgrows.begins hhas
    exact .begins hbegin

/-- Where a text is open, the active instance takes the phrase by its latest entry. -/
theorem Tree.Takes.of_inText (h : t.Takes g active p t' taker) (hc : t.Conforms g) (hin : t.inText active = true) :
    taker = active ∧ ∃ n e, t.node? active = some n ∧ n.Answers g p (.replace e) ∧
      t'.node? active = some (n.replaceLast e) := by
  obtain ⟨n, hn, hnin⟩ := Tree.inText_eq_true.mp hin
  have hl := hc.legal active n hn
  have haccepts : (t.offer g p active).found? ≠ none := by
    obtain ⟨e, he⟩ := hl.offer_of_inText (p := p) hnin
    simp [Tree.offer, hn, he]
  cases h with
  | global hown | ancestor hown => exact absurd hown haccepts
  | @own m change hm ha =>
    cases hn.symm.trans hm
    cases change with
    | replace e => exact ⟨rfl, n, e, hn, ha, by simp [Tree.apply, node?_modify, hn]⟩
    | grow growth =>
      rw [ha.inText_of_grow hl] at hnin
      cases hnin

/-- **What is to be read again** is the closing phrase of a text that was just closed. -/
theorem Tree.Takes.rereads {phrase : String} {start : Cursor} (h : t.Takes g active p t' taker) (hc : t.Conforms g)
    (hin : t.inText active = true) (hkeep : ∀ path : Path, path.HandsBack → keep path)
    (hback : t'.toReread? taker = some (phrase, start)) :
    ∃ x c c', t.Has g keep (.text x) c ∧ t'.Has g keep (.text x) c' ∧ x.resume? p c = some c' ∧
      c'.handBack? = some phrase ∧ c'.span.stop = start := by
  obtain ⟨rfl, n, e, hn, ha, hn'⟩ := h.of_inText hc hin
  have hback : e.toReread? = some (phrase, start) := by
    simpa [Tree.toReread?, hn', Node.last?, Node.replaceLast] using hback
  obtain ⟨x, c, c', hold, hnew, hresume, hphrase, hstart⟩ := ha.rereads (hc.legal _ n hn) hkeep hback
  exact ⟨x, c, c', ⟨_, n, hn, hold⟩, ⟨_, _, hn', hnew⟩, hresume, hphrase, hstart⟩

/-- **An open text takes every phrase** that the tree takes. -/
theorem Tree.Takes.resumes {x : TextPart} (h : t.Takes g active p t' taker) (hc : t.Conforms g)
    (ho : t.OpenOnlyAt active) (hhas : t.Has g keep (.text x) c) (hin : c.inText = true) :
    ∃ c', x.resume? p c = some c' ∧ t'.Has g keep (.text x) c' ∧
      (c'.toReread?.isSome = true → (t'.toReread? taker).isSome = true) := by
  obtain ⟨rfl, n, e, hn, ha, hn'⟩ := h.of_inText hc (hhas.inText hc ho hin)
  obtain ⟨id, m, hm, hhas⟩ := hhas
  have hid := ho id m hm (hhas.inText (hc.legal id m hm) hin)
  subst hid
  cases hn.symm.trans hm
  obtain ⟨c', hc', hnew, hback⟩ := ha.resumes (hc.legal _ n hn) hhas hin
  refine ⟨c', hc', ⟨_, _, hn', hnew⟩, fun h => ?_⟩
  simpa [Tree.toReread?, hn', Node.last?, Node.replaceLast] using hback h

/-! ### Nothing left to be read again -/

theorem Entry.inText_settled (e : Entry) : e.settled.inText = e.inText := by
  have hbranch : ∀ b : Branch, b.settled.inText = b.inText := by
    intro b
    unfold Branch.settled Branch.inText Branch.last?
    split <;> simp_all [Capture.settled]
  cases e with
  | capture c | child x => rfl
  | fork f => simp [Entry.settled, Entry.inText, Fork.settled, Fork.inText, hbranch, Function.comp_def]

theorem Entry.Has.of_settled {parts : List (Part RuleId)} {e : Entry} (h : e.settled.Has parts keep part c) :
    ∃ c₀, e.Has parts keep part c₀ ∧ (c = c₀ ∨ c = c₀.settled) := by
  cases e with
  | child x => cases h
  | capture c₀ =>
    cases h with
    | own hat => exact ⟨c₀, .own hat, Or.inr rfl⟩
  | fork f =>
    cases h with
    | branch hat hb hpath hkeep hc hpart =>
      obtain ⟨b, hb₀, rfl⟩ := List.mem_map.mp hb
      rcases hcs : b.captures with _ | ⟨last, earlier⟩
      · simp [Branch.settled, hcs] at hc
      · simp only [Branch.settled, hcs] at hpath hc
        rcases List.mem_cons.mp hc with rfl | hc
        · exact ⟨last, .branch hat hb₀ hpath hkeep (by simp [hcs]) hpart, Or.inr rfl⟩
        · exact ⟨_, .branch hat hb₀ hpath hkeep (by simp [hcs, hc]) hpart, Or.inl rfl⟩

theorem Tree.OpenOnlyAt.settle (h : t.OpenOnlyAt active) (id : NodeId) : (t.settle id).OpenOnlyAt active := by
  refine All.modify h fun n hn hold hin => hold ?_
  rcases hentries : n.entries with _ | ⟨e, rest⟩
  · simp [Node.inText, Node.last?, hentries] at hin
  · simpa [Node.inText, Node.last?, hentries, Entry.inText_settled] using hin

theorem Tree.Has.of_settle (h : (t.settle id).Has g keep part c) :
    ∃ c₀, t.Has g keep part c₀ ∧ (c = c₀ ∨ c = c₀.settled) := by
  obtain ⟨j, n, hn, e, he, hc⟩ := h
  rcases node?_modify_cases hn with ⟨-, hold⟩ | ⟨m, rfl, hm, rfl⟩
  · exact ⟨c, ⟨j, n, hold, e, he, hc⟩, Or.inl rfl⟩
  · rcases hentries : m.entries with _ | ⟨last, rest⟩
    · simp [hentries] at he
    · simp only [hentries, List.modifyHead_cons] at he
      rcases List.mem_cons.mp he with rfl | he
      · obtain ⟨c₀, hc₀, heq⟩ := hc.of_settled
        exact ⟨c₀, ⟨j, m, hm, last, by simp [hentries], hc₀⟩, heq⟩
      · exact ⟨c, ⟨j, m, hm, e, by simp [hentries, he], hc⟩, Or.inl rfl⟩

end Tree

end PhraseTree
