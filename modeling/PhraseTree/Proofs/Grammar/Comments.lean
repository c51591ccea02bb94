import PhraseTree.Proofs.Tree.Acceptance
import Mathlib.Data.List.Infix

/-!
# Grammars with comments

Comments are what a single global rule takes that consists of a text, where no other rule can take the beginning of its
opening phrase.

* `Grammar.Comments g rule t start` — `rule` is the only global candidate, it consists of the text `t`, and every other
  rule shuns the beginnings of `start`, which opens `t`;
* `TextPart.Comment t start text` — the characters `text` are one comment: what follows `start` ends with the closing
  phrase, which does not occur there before;
* `Grammar.Comments.refused`: an instance of another rule that is in no text refuses the beginnings of `start`;
* `Grammar.Comments.offerGlobal`: the global choice takes `start` and nothing else;
* `Grammar.Comments.note`: an instance of `rule` holds a single text.
-/

namespace PhraseTree

/-- `phrase` is a non-empty beginning of `start`. -/
def Heads (phrase start : String) : Prop := phrase ≠ "" ∧ phrase.toList <+: start.toList

instance (phrase start : String) : Decidable (Heads phrase start) :=
  inferInstanceAs (Decidable (phrase ≠ "" ∧ phrase.toList <+: start.toList))

/-- No beginning of `start` is a phrase that the part asks for by its text. -/
def SimplePart.Shuns (start : String) : SimplePart → Prop
  | .keyword phrase => ¬ Heads phrase start
  | .identifier _ | .number _ => True
  | .modifiers m => ∀ phrase ∈ m.phrases, ¬ Heads phrase start
  | .text t => ∃ opening, t.opening? = some opening ∧ ¬ Heads opening start

/-- No beginning of `start` is a phrase that the part asks for by its text, its separator among them. -/
def Part.Shuns {ρ : Type} (start : String) : Part ρ → Prop
  | .simple part => part.Shuns start
  | .alternatives a => ∀ path ∈ a.paths, ∀ part ∈ path, part.Shuns start
  | .choice c => ∀ separator, c.separator? = some separator → ¬ Heads separator start

/-- **The grammar has comments**: the only global candidate is `rule`, which consists of the text `t` that `start` opens
and that takes its closing phrase along.  No other rule takes a beginning of `start`, and none refers to `rule`. -/
structure Grammar.Comments (g : Grammar) (rule : RuleId) (t : TextPart) (start : String) : Prop where
  global : g.global.candidates = [rule]
  parts : g.parts rule = [.simple (.text t)]
  opening : t.opening? = some start
  closing_ne : t.closing ≠ ""
  kept : t.handsBack = false
  start_ne : start ≠ ""
  /-- All characters of `start` make runs of other characters. -/
  start_other : ∀ ch ∈ start.toList, g.classes.isOther ch = true
  shunned : ∀ other, other ≠ rule → ∀ part ∈ g.parts other, part.Shuns start
  unnamed : ∀ other, ∀ part ∈ g.parts other, rule ∉ part.candidates

/-- **One comment**: what follows `start` ends with the closing phrase, which does not occur there before. -/
def TextPart.Comment (t : TextPart) (start : String) (text : List Char) : Prop :=
  ∃ rest, text = start.toList ++ rest ∧ t.closing.toList <:+ rest ∧
    ∀ earlier, earlier <+: rest → t.closing.toList <:+ earlier → earlier = rest

/-- Whether the characters are one comment can be told from the beginnings of what follows `start`. -/
theorem TextPart.comment_iff {t : TextPart} {start : String} {text : List Char} : t.Comment start text ↔
    start.toList <+: text ∧ t.closing.toList <:+ text.drop start.toList.length ∧
      ∀ earlier ∈ (text.drop start.toList.length).inits, t.closing.toList <:+ earlier →
        earlier = text.drop start.toList.length := by
  constructor
  · rintro ⟨rest, rfl, hcloses, hfirst⟩
    rw [List.drop_left]
    exact ⟨List.prefix_append _ _, hcloses, fun earlier h => hfirst earlier ((List.mem_inits _ _).mp h)⟩
  · rintro ⟨⟨rest, rfl⟩, hcloses, hfirst⟩
    rw [List.drop_left] at hcloses hfirst
    exact ⟨rest, rfl, hcloses, fun earlier h => hfirst earlier ((List.mem_inits _ _).mpr h)⟩

instance (t : TextPart) (start : String) (text : List Char) : Decidable (t.Comment start text) :=
  decidable_of_iff' _ TextPart.comment_iff

/-! ### Parts that shun a phrase -/

section Shuns

variable {start : String} {p : Phrase} {i : Nat}

theorem SimplePart.Shuns.begin? {part : SimplePart} (h : part.Shuns start) (hkind : p.kind = .chars)
    (hp : Heads p.text start) : part.begin? i p = none := by
  cases part with
  | keyword phrase =>
    refine if_neg fun heq => h ?_
    rwa [heq]
  | identifier | number =>
    refine if_neg fun heq => ?_
    rw [hkind] at heq
    cases heq
  | modifiers m => exact if_neg fun hmem => h p.text hmem hp
  | text t =>
    obtain ⟨opening, hopening, hnot⟩ := h
    refine if_neg fun hopens => hnot ?_
    have heq : opening = p.text := by simpa [TextPart.opens, hopening] using hopens
    rwa [heq]

theorem SimplePart.Shuns.resume? {part : SimplePart} {c : Capture} (h : part.Shuns start) (hp : Heads p.text start)
    (hin : c.inText = false) : part.resume? p c = none := by
  cases part with
  | keyword | identifier | number => rfl
  | modifiers m => exact if_neg fun ⟨hmem, _⟩ => h p.text hmem hp
  | text t =>
    refine if_neg fun hopen => ?_
    rw [hin] at hopen
    cases hopen

theorem Path.take?_shunned {path : Path} {last? : Option Capture} (h : ∀ part ∈ path, part.Shuns start)
    (hkind : p.kind = .chars) (hp : Heads p.text start) (hin : ∀ c ∈ last?, c.inText = false) :
    path.take? p last? = none := by
  by_contra hne
  obtain ⟨c, hc⟩ := Option.ne_none_iff_exists'.mp hne
  rcases take?_cases hc with ⟨last, part, rfl, -, hat, hresume⟩ | ⟨-, i, part, -, -, -, -, hat, hbegin⟩
  · rw [(h part (List.mem_of_getElem? hat)).resume? hp (hin last rfl)] at hresume
    cases hresume
  · rw [(h part (List.mem_of_getElem? hat)).begin? hkind hp] at hbegin
    cases hbegin

end Shuns

namespace Grammar.Comments

variable {g : Grammar} {rule other : RuleId} {t : TextPart} {start : String} {p : Phrase} {n : Node} {i : Nat}
  {growth : Growth}

/-! ### Other rules -/

theorem not_grows (h : g.Comments rule t start) (hkind : p.kind = .chars) (hp : Heads p.text start)
    (hother : other ≠ rule) : ¬ Grows g p (g.parts other) i growth := by
  induction growth generalizing other i with
  | capture c =>
    rintro (⟨-, -, hat, hbegin⟩ | _ | _)
    have hshuns : SimplePart.Shuns start _ := h.shunned other hother _ (List.mem_of_getElem? hat)
    rw [hshuns.begin? hkind hp] at hbegin
    cases hbegin
  | fork f =>
    rintro (_ | ⟨-, -, hat, hbegin⟩ | _)
    have hshuns : ∀ path ∈ _, ∀ part ∈ path, SimplePart.Shuns start part :=
      h.shunned other hother _ (List.mem_of_getElem? hat)
    obtain ⟨path, hpath, haccepts⟩ := Alternatives.begin?_isSome.mp (by rw [hbegin]; rfl)
    have htakes := Path.take?_isSome.mpr haccepts
    rw [Path.take?_shunned (hshuns path hpath) hkind hp (by simp)] at htakes
    cases htakes
  | child slot candidate growth ih =>
    rintro (_ | _ | ⟨-, -, hat, hmem, hgrows⟩)
    refine ih ?_ hgrows
    rintro rfl
    exact h.unnamed other _ (List.mem_of_getElem? hat) hmem

/-- **An instance of another rule that is in no text refuses every beginning of `start`.** -/
theorem refused (h : g.Comments rule t start) (hkind : p.kind = .chars) (hp : Heads p.text start)
    (hother : n.rule ≠ rule) (hin : n.inText = false) : (n.offer g p).found? = none := by
  by_contra hne
  obtain ⟨c, hc⟩ := Option.ne_none_iff_exists'.mp hne
  have hclosed : ∀ e, n.last? = some e → e.inText = false := by
    intro e he
    rwa [Node.inText, he] at hin
  cases Node.offer_answers hc with
  | capture hlast hfin hat hresume =>
    have hshuns : SimplePart.Shuns start _ := h.shunned _ hother _ (List.mem_of_getElem? hat)
    rw [hshuns.resume? hp (hclosed _ hlast)] at hresume
    cases hresume
  | @fork f f' a hlast hat hresume =>
    have hshuns : ∀ path ∈ a.paths, ∀ part ∈ path, SimplePart.Shuns start part :=
      h.shunned _ hother _ (List.mem_of_getElem? hat)
    obtain ⟨b', hb'⟩ := Fork.of?_isSome.mp (show (a.resume? f.part p f).isSome = true by rw [hresume]; rfl)
    obtain ⟨b, hb, htake⟩ := List.mem_filterMap.mp hb'
    obtain ⟨path, c', hpath, htake, -⟩ := Branch.take?_eq_some htake
    have hbranch : ∀ c ∈ b.last?, c.inText = false := by
      intro c hc
      have hnone := List.any_eq_false.mp (hclosed _ hlast) b hb
      rw [Branch.inText, Option.mem_def.mp hc] at hnone
      simpa using hnone
    rw [Path.take?_shunned (hshuns path (List.mem_of_getElem? hpath)) hkind hp hbranch] at htake
    cases htake
  | separator hlast hat hdue hsep =>
    have hshuns : ∀ separator, _ = some separator → ¬ Heads separator start :=
      h.shunned _ hother _ (List.mem_of_getElem? hat)
    exact hshuns _ hsep hp
  | again hlast hat hsep hplural hmem hgrows =>
    refine h.not_grows hkind hp ?_ hgrows
    rintro rfl
    exact h.unnamed _ _ (List.mem_of_getElem? hat) hmem
  | first hlast hgrows => exact h.not_grows hkind hp hother hgrows
  | onward hlast hstuck hgrows => exact h.not_grows hkind hp hother hgrows

/-! ### The rule of comments -/

/-- **The global choice takes `start`** and nothing else. -/
theorem offerGlobal (h : g.Comments rule t start) (p : Phrase) :
    (Tree.offerGlobal g p).found? = (t.begin? 0 p).map fun c => (rule, .capture c) := by
  have hsprout : (g.sprout p rule).found? = (t.begin? 0 p).map .capture := by
    rw [Grammar.sprout_eq, h.parts, growFrom, Search.found?_orElse]
    have hfirst : (growAt (g.sprout p) p 0 (.simple (.text t))).found? = (t.begin? 0 p).map Growth.capture := rfl
    rw [hfirst]
    cases t.begin? 0 p with
    | some c => rfl
    | none => split <;> rfl
  rw [Tree.offerGlobal, h.global, firstOf, Search.found?_orElse, Search.found?_map, Search.found?_inInstance, hsprout]
  cases t.begin? 0 p <;> rfl

theorem begin?_of_ne (h : g.Comments rule t start) (hne : p.text ≠ start) : t.begin? i p = none := by
  refine if_neg fun hopens => hne ?_
  have heq : start = p.text := by simpa [TextPart.opens, h.opening] using hopens
  exact heq.symm

theorem begin?_of_eq (h : g.Comments rule t start) (heq : p.text = start) : t.begin? i p =
    some { Capture.ofPhrase i p with inText := true, opening := start.toList.length } := by
  have hopens : t.opens p.text = true := by simp [TextPart.opens, h.opening, heq]
  rw [TextPart.begin?, if_pos hopens, heq]

/-- **An instance of the rule** holds a single text. -/
theorem note (h : g.Comments rule t start) (hl : n.Legal g) (hrule : n.rule = rule) (hfilled : n.entries ≠ []) :
    ∃ c, n.entries = [.capture c] ∧ c.part = 0 ∧ (SimplePart.text t).Holds c := by
  have hparts : g.parts n.rule = [.simple (.text t)] := by rw [hrule, h.parts]
  have hentry : ∀ e ∈ n.entries, ∃ c, e = .capture c ∧ c.part = 0 ∧ (SimplePart.text t).Holds c := by
    intro e he
    have hfits := hl.fits e he
    have hlt := hfits.lt_length
    rw [hparts] at hfits hlt
    have hzero : e.part = 0 := Nat.lt_one_iff.mp hlt
    cases e with
    | capture c =>
      obtain ⟨part, hat, hholds⟩ := hfits
      change c.part = 0 at hzero
      rw [hzero] at hat
      cases hat
      exact ⟨c, rfl, hzero, hholds⟩
    | child x =>
      obtain ⟨c, hat, -⟩ := hfits
      change x.part = 0 at hzero
      rw [hzero] at hat
      cases hat
    | fork f =>
      obtain ⟨a, hat, -⟩ := hfits
      change f.part = 0 at hzero
      rw [hzero] at hat
      cases hat
  obtain ⟨last, earlier, hentries⟩ := List.exists_cons_of_ne_nil hfilled
  obtain ⟨c, rfl, hpart, hholds⟩ := hentry last (by rw [hentries]; exact List.mem_cons_self)
  cases earlier with
  | nil => exact ⟨c, hentries, hpart, hholds⟩
  | cons e earlier =>
    -- a further text would stand at a later place, and there is none
    have hfollows := hl.follows
    rw [hentries] at hfollows
    obtain ⟨hnext, -⟩ := List.isChain_cons_cons.mp hfollows
    obtain ⟨c', rfl, hpart', -⟩ := hentry e (by rw [hentries]; simp)
    rcases hnext.2 with ⟨hlt, -⟩ | ⟨-, _, _, -, hchild, -⟩
    · have hlt : c'.part < c.part := hlt
      omega
    · cases hchild

section Note

variable (h : g.Comments rule t start) (hl : n.Legal g) (hrule : n.rule = rule) (hfilled : n.entries ≠ [])

include h hl hrule hfilled

theorem offer_note : ∃ c, n.last? = some (.capture c) ∧ c.part = 0 ∧ (SimplePart.text t).Holds c ∧
    ∀ p, (n.offer g p).found? = (t.resume? p c).map fun c => .replace (.capture c) := by
  obtain ⟨c, hentries, hpart, hholds⟩ := h.note hl hrule hfilled
  have hlast : n.last? = some (.capture c) := by rw [Node.last?, hentries, List.head?_cons]
  refine ⟨c, hlast, hpart, hholds, fun p => ?_⟩
  have honward : (n.advance g p (c.part + 1)).found? = none := by
    rw [Node.advance, hrule, h.parts, hpart]
    rfl
  have hat : (g.parts n.rule)[(Entry.capture c).part]? = some (.simple (.text t)) := by
    rw [hrule, h.parts]
    show [_][c.part]? = _
    rw [hpart]
    rfl
  unfold Node.offer
  rw [hlast]
  dsimp only
  split
  · next hfin =>
    have hclosed : c.inText = false := by
      by_contra hopen
      have hfin : c.finished = true := hfin
      rw [hholds.finished_of_inText (by simpa using hopen)] at hfin
      cases hfin
    have hnone : t.resume? p c = none := by simp [TextPart.resume?, hclosed]
    rw [hnone]
    exact honward
  · rw [hat]
    have hresume : ((Part.simple (.text t)).resume (g.sprout p) p (.capture c)).found? =
        (t.resume? p c).map fun c => .replace (.capture c) := rfl
    show (_ <|> n.advance g p (c.part + 1)).found? = _
    rw [Search.found?_orElse, hresume, honward]
    cases t.resume? p c <;> rfl

theorem needsMore_note : n.needsMore g = false := by
  obtain ⟨c, hlast, hpart, -⟩ := h.offer_note hl hrule hfilled
  have hnext : n.nextPart = 1 := by
    rw [Node.nextPart, hlast]
    exact congrArg (· + 1) hpart
  rw [Node.needsMore, hlast, hnext, hrule, h.parts]
  rfl

theorem refused_note (hin : n.inText = false) (p : Phrase) : (n.offer g p).found? = none := by
  obtain ⟨c, hlast, -, -, hoffer⟩ := h.offer_note hl hrule hfilled
  have hclosed : c.inText = false := by rwa [Node.inText, hlast] at hin
  have hnone : t.resume? p c = none := by simp [TextPart.resume?, hclosed]
  rw [hoffer, hnone]
  rfl

/-- **A comment that is open takes every phrase**, and is closed where its closing phrase stands at the end. -/
theorem taken_note (hin : n.inText = true) (p : Phrase) : ∃ c c', n.last? = some (.capture c) ∧
    (n.offer g p).found? = some (.replace (.capture c')) ∧ c'.value = c.value ++ p.text ∧ c'.handBack? = none ∧
      c'.inText = !t.closes start.toList.length (c.value ++ p.text) := by
  obtain ⟨c, hlast, -, hholds, hoffer⟩ := h.offer_note hl hrule hfilled
  have hopen : c.inText = true := by rwa [Node.inText, hlast] at hin
  have hopening : c.opening = start.toList.length := (hholds.2.2.1 start h.opening).1
  have hback : c.handBack? = none := hholds.handBack?_of_inText hopen
  obtain ⟨c', hc'⟩ := Option.isSome_iff_exists.mp (TextPart.resume?_isSome (t := t) (p := p) hopen)
  refine ⟨c, c', hlast, by rw [hoffer, hc']; rfl, ?_⟩
  rw [← hopening]
  rcases (TextPart.resume?_cases hc').2 with ⟨hcloses, rfl⟩ | ⟨hcloses, -, rfl⟩ | ⟨-, hgives, -⟩
  · exact ⟨rfl, hback, by rw [hcloses]; exact hopen⟩
  · exact ⟨rfl, hback, by rw [hcloses]; rfl⟩
  · rw [h.kept] at hgives
    cases hgives

end Note

end Grammar.Comments

end PhraseTree
