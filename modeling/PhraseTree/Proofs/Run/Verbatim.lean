import PhraseTree.Proofs.Run.Termination

/-!
# Texts are kept as they are

In a calm run the value of a text is what its span cuts out of the text that was read, and what is left is read where it
stands.  This is so in calm runs only: a text that is still open when something is given back takes the same characters a
second time (`Grammar.calm_iff_faithful`, `Grammar.read?_verbatim`).  `Crossed.doubled` is such a run.
-/

namespace PhraseTree

theorem Run.Ends.tracks {g : Grammar} {s : Settings} {keep : Path → Prop} {text : List Char} {r : Run}
    {taken : List Phrase} (h : Run.Ends g s text r taken) (hkeep : ∀ path : Path, path.HandsBack → keep path)
    (hcalm : g.Calm s keep text) : ∃ low, Run.Tracks g keep {} text r taken low text.length := by
  obtain ⟨low, pos, htracks, hrest⟩ := h.reached.tracks hkeep hcalm
  have hpos : pos = text.length := by
    have hle := List.drop_eq_nil_iff.mp hrest.symm
    have := htracks.pos_le
    omega
  subst hpos
  exact ⟨low, htracks⟩

theorem Grammar.Calm.read?_ends {g : Grammar} {s : Settings} {keep : Path → Prop} {text : List Char}
    (hcalm : g.Calm s keep text) (hkeep : ∀ path : Path, path.HandsBack → keep path) :
    ∃ r taken, Run.Ends g s text r taken ∧
      g.read? s text = some (if s.reportUnfinished then r.reportEnd g s else r) := by
  obtain ⟨r', hread⟩ := Option.isSome_iff_exists.mp (read?_isSome (hcalm.mono hkeep))
  obtain ⟨r, taken, hends, rfl⟩ := read?_reached hread
  exact ⟨r, taken, hends, hread⟩

theorem Run.Tracks.value_eq_cut {g : Grammar} {keep : Path → Prop} {text : List Char} {r : Run} {taken : List Phrase}
    {low pos : Nat} {part : SimplePart} {c : Capture} (h : Run.Tracks g keep {} text r taken low pos)
    (hlen : text.length < 4294967295) (hc : r.tree.Has g keep part c) (hm : ∀ m, part ≠ .modifiers m) :
    c.value.toList = c.span.cut text := by
  rcases h.tree.quoted part c hc hm with ⟨c₀, hc₀, -⟩ | ⟨a, b, hquotes⟩
  · exact absurd hc₀ Tree.not_has_root
  · exact hquotes.eq_cut hlen

/-! ### What is not calm -/

/-- An open text that has taken all characters up to `pos` and takes one of them again has one character too many, unless
it is closed; then what it gives back is longer than what it leaves. -/
theorem TextPart.resume?_again {x : TextPart} {p : Phrase} {c c' : Capture} {text : List Char} {taken : List Phrase}
    {low pos a b : Nat} (h : x.resume? p c = some c') (ho : c.OpenFrom .start text low pos taken a)
    (hnone : c.handBack? = none) (hone : p.text.toList.length = 1) (hstop : p.span.stop = cursorAt .start text b) :
    (c'.handBack? = none → c'.value.toList.length = pos - a + 1 ∧
        c'.span = ⟨cursorAt .start text a, cursorAt .start text b⟩) ∧
      ∀ phrase, c'.handBack? = some phrase → ∃ e, e ≤ pos ∧ c'.span.stop = cursorAt .start text e ∧
        phrase.toList.length + e = pos + 1 := by
  have hle := ho.quotes.le
  have hstart : c.span.start = cursorAt .start text a := by rw [ho.quotes.span_eq]
  have hlength : (c.value ++ p.text).toList.length = pos - a + 1 := by
    rw [String.toList_append, List.length_append, ho.quotes.length_eq, hone]
  obtain ⟨-, ⟨-, rfl⟩ | ⟨-, -, rfl⟩ | ⟨hcloses, -, rfl⟩⟩ := resume?_cases h
  · exact ⟨fun _ => ⟨hlength, by simp [Capture.upTo, hstart, hstop]⟩, by simp [Capture.upTo, hnone]⟩
  · exact ⟨fun _ => ⟨hlength, by simp [Capture.upTo, hstart, hstop]⟩, by simp [Capture.upTo, hnone]⟩
  · refine ⟨by simp, fun phrase hphrase => ?_⟩
    have : x.closing = phrase := by simpa using hphrase
    subst this
    obtain ⟨hne, hroom, -⟩ := closes_iff.mp hcloses
    have hopening := ho.opening_pos
    have hclosing : 0 < x.closing.toList.length := by
      rw [List.length_pos_iff, ne_eq, String.toList_eq_nil_iff]
      exact hne
    rw [String.length_toList] at hlength hclosing
    -- what is kept was taken before the character came again
    obtain ⟨kept, hkept⟩ : ∃ kept, kept = (c.value ++ p.text).length - x.closing.length := ⟨_, rfl⟩
    have hbefore : kept ≤ c.value.toList.length := by
      rw [ho.quotes.length_eq]
      omega
    have hkeep : x.keep (c.value ++ p.text) = c.value.toList.take kept := by
      rw [keep, ← hkept, String.toList_append, List.take_append_of_le_length hbefore]
    have hquotes := ho.quotes.take (ho.quotes.length_eq ▸ hbefore)
    rw [← hkeep] at hquotes
    refine ⟨a + kept, by omega, congrArg Span.stop hquotes.span_eq, ?_⟩
    rw [String.length_toList]
    omega

namespace Run

variable {g : Grammar} {s : Settings} {keep : Path → Prop} {text rest again : List Char} {r r' : Run}
  {taken taken' : List Phrase} {low pos b : Nat} {ch : Char} {part : SimplePart} {c : Capture} {x : TextPart}

/-- **A state that is true to its text**: the texts are what their spans cut out of it, and what is left is read where
it stands. -/
structure Faithful (g : Grammar) (keep : Path → Prop) (text : List Char) (r : Run) (rest : List Char) : Prop where
  verbatim : ∀ t c, r.tree.Has g keep (.text t) c → c.value.toList = c.span.cut text
  inPlace : ∃ pos, pos ≤ text.length ∧ r.cursor = cursorAt .start text pos ∧ rest = text.drop pos

theorem Tracks.faithful (h : Tracks g keep {} text r taken low pos) (hlen : text.length < 4294967295)
    (hrest : rest = text.drop pos) : r.Faithful g keep text rest :=
  ⟨fun _ _ hc => h.value_eq_cut hlen hc (by simp), pos, h.pos_le, h.cursor, hrest⟩

/-- **An open text that takes again** what it has taken is not true to its text any more: it has too many characters, or
too many are given back. -/
theorem not_faithful_of_again (hlen : text.length < 4294967295) {t₀ : Tree}
    (htree : r.tree.Tracked g keep r.active t₀ .start text taken low pos) (hpos : pos ≤ text.length)
    (hb : b < pos) (hcursor : r.cursor = cursorAt .start text b) (hch : text[b]? = some ch)
    (hrest : rest.length + b + 1 = text.length) (hkeep : ∀ path : Path, path.HandsBack → keep path)
    (hc : r.tree.Has g keep (.text x) c) (hin : c.inText = true) :
    ¬ (r.readText g s ch).1.Faithful g keep text ((r.readText g s ch).2 ++ rest) := by
  intro hfaithful
  have hrin : r.inText = true := hc.inText htree.conforms htree.openOnly hin
  have htakes := (resolve_places g s (r.past ch) (.single .chars r.cursor ch) true).takes
    (resolve_of_inText (r := r.past ch) htree.conforms hrin)
  have hone : (Phrase.single .chars r.cursor ch).text.toList.length = 1 := by simp [Phrase.single]
  have hstop : (Phrase.single .chars r.cursor ch).span.stop = cursorAt .start text (b + 1) := by
    rw [← cursorAt_advance hch, ← hcursor]
    rfl
  cases hback : (r.takeChar g s ch).tree.toReread? (r.takeChar g s ch).active with
  | none =>
    rw [Run.readText, giveBack_of_none hback] at hfaithful
    obtain ⟨c', hresume, hc', hgives⟩ := htakes.resumes htree.conforms htree.openOnly hc hin
    have hnone : c'.handBack? = none := by
      by_contra hsome
      obtain ⟨phrase, hphrase⟩ := Option.ne_none_iff_exists'.mp hsome
      have hsome : ((r.takeChar g s ch).tree.toReread? (r.takeChar g s ch).active).isSome = true :=
        hgives (by simp [Capture.toReread?, hphrase])
      rw [hback] at hsome
      cases hsome
    obtain ⟨a, hopen⟩ := htree.opened _ c hc hin
    have hcnone := (hc.holds htree.conforms).handBack?_of_inText hin
    obtain ⟨hvalue, hspan⟩ := (TextPart.resume?_again hresume hopen hcnone hone hstop).1 hnone
    have hcut := length_cut_le hlen (hopen.quotes.le.trans hopen.quotes.le_length) (by omega : b + 1 ≤ text.length)
    rw [← hspan, ← hfaithful.verbatim x c' hc', hvalue] at hcut
    omega
  | some reread =>
    obtain ⟨phrase, start⟩ := reread
    rw [Run.readText, giveBack_of_some hback] at hfaithful
    obtain ⟨x', c₁, c₂, hc₁, -, hresume, hphrase, hstart⟩ := htakes.rereads htree.conforms hrin hkeep hback
    have hin₁ := (TextPart.resume?_cases hresume).1
    obtain ⟨a, hopen⟩ := htree.opened _ c₁ hc₁ hin₁
    have hcnone := (hc₁.holds htree.conforms).handBack?_of_inText hin₁
    obtain ⟨e, he, hat, hlength⟩ := (TextPart.resume?_again hresume hopen hcnone hone hstop).2 phrase hphrase
    obtain ⟨e', he', hat', hleft⟩ := hfaithful.inPlace
    have hsame : e' = e := cursorAt_inj hlen he' (he.trans hpos) (hat'.symm.trans (hstart.symm.trans hat))
    have hcount := congrArg List.length hleft
    rw [List.length_append, List.length_drop] at hcount
    dsimp only at hcount
    omega

/-- Where all states are true to the text, nothing is open when something is given back. -/
theorem Tracks.closed_of_faithful (h : Tracks g keep {} text r taken low pos) (hlen : text.length < 4294967295)
    (hkeep : ∀ path : Path, path.HandsBack → keep path) (hreached : Reached g s text r taken (ch :: rest))
    (hrest : ch :: rest = text.drop pos) (hread : Reads g s r taken ch r' taken' again) (hagain : again ≠ [])
    (hfaithful : ∀ r taken rest, Reached g s text r taken rest → r.Faithful g keep text rest) :
    ∀ part c, r'.tree.Has g keep part c → c.inText = false := by
  obtain ⟨hch, hdrop⟩ := of_cons_eq_drop hrest
  have hnext := hreached.read hread
  cases hread with
  | lengthen | begin | skip => exact absurd rfl hagain
  | text hin =>
    obtain ⟨hafter, hgives⟩ := h.takeChar (s := s) hin (hreached.buffer_of_inText hin) hch
    cases hback : (r.takeChar g s ch).tree.toReread? (r.takeChar g s ch).active with
    | none =>
      rw [Run.readText, giveBack_of_none hback] at hagain
      exact absurd rfl hagain
    | some reread =>
      obtain ⟨phrase, start⟩ := reread
      obtain ⟨b, hgives⟩ := hgives hkeep phrase start hback
      rw [Run.readText, giveBack_of_some hback] at hnext hagain ⊢
      intro part c hc
      by_contra hcin
      have hcin : c.inText = true := by simpa using hcin
      have htree := hafter.tree.settle (r.takeChar g s ch).active
      obtain ⟨x, rfl⟩ := (hc.holds htree.conforms).text_of_inText hcin
      -- the text takes the first of the characters given back
      obtain ⟨again, more, hphrase⟩ := List.exists_cons_of_ne_nil hagain
      have hslice : slice text b (pos + 1) ++ text.drop (pos + 1) = text.drop b := slice_append_drop hgives.lt_pos.le
      have hlength := hgives.length_eq hafter.pos_le
      dsimp only at hnext hphrase
      rw [hphrase] at hnext hlength
      rw [← hgives.phrase_eq, hphrase] at hslice
      have hagain' : text[b]? = some again := by rw [← List.head?_drop, ← hslice]; rfl
      have hleft : (more ++ rest).length + b + 1 = text.length := by
        have := hafter.pos_le
        have := hgives.lt_pos
        rw [hdrop, List.length_append, List.length_drop]
        rw [List.length_cons] at hlength
        omega
      exact not_faithful_of_again hlen htree hafter.pos_le hgives.lt_pos hgives.start_eq hagain' hleft hkeep hc hcin
        (hfaithful _ _ _ (hnext.read (.text (hc.inText htree.conforms htree.openOnly hcin))))

end Run

/-- **A run is calm just if all its states are true to the text.** -/
theorem Grammar.calm_iff_faithful {g : Grammar} {s : Settings} {keep : Path → Prop} {text : List Char}
    (hlen : text.length < 4294967295) (hkeep : ∀ path : Path, path.HandsBack → keep path) :
    g.Calm s keep text ↔ ∀ r taken rest, Run.Reached g s text r taken rest → r.Faithful g keep text rest := by
  constructor
  · intro hcalm r taken rest hr
    obtain ⟨low, pos, htracks, hrest⟩ := hr.tracks hkeep hcalm
    exact htracks.faithful hlen hrest
  · intro hfaithful r taken ch rest r' taken' again hr hread hagain
    obtain ⟨low, pos, htracks, hrest⟩ := hr.tracks_of hkeep
      fun _ _ _ _ _ _ _ _ _ h hrest hr hread hagain => h.closed_of_faithful hlen hkeep hr hrest hread hagain hfaithful
    exact htracks.closed_of_faithful hlen hkeep hr hrest hread hagain hfaithful

/-- **Where texts are kept verbatim.**  All along a run each text is what its span cuts out of the text, and what is left
is read where it stands, just if no other text is open where something is given back.  Then the run comes to its end,
and the same holds of its result.  This is so for all texts if paths that give something back are kept apart. -/
theorem Grammar.read?_verbatim {g : Grammar} {s : Settings} {keep : Path → Prop} {text : List Char}
    (hlen : text.length < 4294967295) (hkeep : ∀ path : Path, path.HandsBack → keep path) :
    (g.Calm s keep text ↔
        ∀ r taken rest, Run.Reached g s text r taken rest → r.Faithful g keep text rest) ∧
      (g.Calm s keep text → ∃ r, g.read? s text = some r ∧
        ∀ t c, r.tree.Has g keep (.text t) c → c.value.toList = c.span.cut text) ∧
      (g.Apart keep → g.Calm s keep text) := by
  refine ⟨calm_iff_faithful hlen hkeep, fun hcalm => ?_, fun hapart => hapart.calm s text⟩
  obtain ⟨r, taken, hends, hread⟩ := hcalm.read?_ends hkeep
  obtain ⟨low, htracks⟩ := hends.tracks hkeep hcalm
  refine ⟨_, hread, fun t c hc => ?_⟩
  have hc' : r.tree.Has g keep (.text t) c := by
    split at hc
    · rwa [(r.reportEnd_cases g s).1] at hc
    · exact hc
  exact htracks.value_eq_cut hlen hc' (by simp)

theorem Listing.verbatim_listing :
    (grammar true).Apart (fun _ => True) ∧ ∃ r, (grammar true).read? {} ['a', ' ', '<', 'b', '>'] = some r ∧
      ∀ t c, r.tree.Has (grammar true) (fun _ => True) (.text t) c →
        c.value.toList = c.span.cut ['a', ' ', '<', 'b', '>'] := by
  have hapart : (grammar true).Apart (fun _ => True) := by decide +kernel
  obtain ⟨-, hread, hcalm⟩ := @Grammar.read?_verbatim (grammar true) {} (fun _ => True) ['a', ' ', '<', 'b', '>']
    (by decide) fun _ _ => trivial
  exact ⟨hapart, hread (hcalm hapart)⟩

namespace Crossed

/-- A text up to the next star, which stays outside. -/
def short : TextPart := { key := "short", opening? := some "<", closing := "*", handsBack := true }

/-- A text that begins in the same way and ends with an exclamation mark. -/
def long : TextPart := { key := "long", opening? := some "<", closing := "!" }

/-- Either of the two. -/
def rules : List (Rule RuleId) := [⟨topLevelName, [.alternatives ⟨[[.text short], [.text long]], false⟩]⟩]

theorem sound_rules : Sound rules { key := "global", candidates := [], optional := true } {} := by
  constructor <;> decide +kernel

def grammar : Grammar := ⟨rules, _, _, sound_rules⟩

/-- What is in the branch with the long text at the end of `<a*b!`. -/
def captured : Capture :=
  { part := 0, values := ["<a**b!"], span := ⟨⟨1, 1⟩, ⟨1, 6⟩⟩, finished := true, inText := false, opening := 1,
    handBack? := none }

/-- **A star that one branch gives back is taken twice by the other.** -/
theorem doubled :
    ∃ r, grammar.read? {} ['<', 'a', '*', 'b', '!'] = some r ∧
      r.tree.Has grammar (fun _ => True) (.text long) captured ∧
      captured.span.cut ['<', 'a', '*', 'b', '!'] = ['<', 'a', '*', 'b', '!'] ∧ captured.value = "<a**b!" := by
  -- the first instance holds one fork, with one branch left
  have hroot : ((grammar.read? {} ['<', 'a', '*', 'b', '!']).bind (·.tree.node? 0)).map (fun n => (n.rule, n.entries)) =
      some (0, [.fork ⟨0, [⟨1, [captured]⟩], true⟩]) := by decide +kernel
  obtain ⟨n, hn, hsame⟩ := Option.map_eq_some_iff.mp hroot
  obtain ⟨r, hread, hn⟩ := Option.bind_eq_some_iff.mp hn
  obtain ⟨hrule, hentries⟩ := Prod.mk.inj hsame
  refine ⟨r, hread, ⟨0, n, hn, _, by rw [hentries]; exact List.mem_singleton_self _, ?_⟩, by decide +kernel, rfl⟩
  rw [hrule]
  exact .branch rfl (List.mem_singleton_self _) rfl trivial (List.mem_singleton_self _) rfl

end Crossed

end PhraseTree
