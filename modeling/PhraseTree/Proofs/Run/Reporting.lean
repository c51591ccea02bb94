import PhraseTree.Proofs.Run.Freezing
import PhraseTree.Proofs.Run.Lockstep

/-!
# What is reported decides nothing

Two runs are compared that read the same text with the same grammar, but under settings of their own and with histories
of their own.  No decision looks at what was reported or at the settings, so they stay in step.

* `Run.visited g r p` — the places of the instances that are asked for `p`;
* `Diagnostic.Told g s text d` — some turn of the run over `text` gives rise to `d`, before its trail is cut;
* `Run.Alike R a b` — the two runs are the same but for their reports, which are related by `R`, and their number;
* `Run.Alike.lockstep`: alike runs go on in lockstep, if `R` is kept where both make one and the same report, each with
  the trail as long as its settings allow; so they stay alike whatever they read (`Run.Alike.readAll`).
-/

namespace PhraseTree

/-- The report with as much of its trail as the settings allow. -/
def Diagnostic.cut (s : Settings) (d : Diagnostic) : Diagnostic := { d with trail := d.trail.take s.maxTrail }

namespace Run

/-- **The places of those that are asked for `p`**, as they are afterwards: the active instance and those around it, up to
the one that takes it. -/
def visited (g : Grammar) (r : Run) (p : Phrase) : List Place :=
  let climb := r.tree.climb g p r.active
  let after :=
    match climb.taken? with
    | some (id, c) => (r.tree.apply id c).1
    | none => r.tree
  (r.tree.leaving g r.active climb).asked.map (after.place g)

end Run

/-- **What a run over `text` reports**, with the trail as a whole: characters that no phrase holds, and what a phrase that
is placed in a turn of the run leaves behind. -/
inductive Diagnostic.Told (g : Grammar) (s : Settings) (text : List Char) : Diagnostic → Prop
  | unknown (span : Span) (content : String) : Told g s text ⟨span, content, .unknownCharacter, []⟩
  | placed {r r' : Run} {p : Phrase} {must : Bool} {rest : List Char} (h : Run.Turn g s text r p must r' rest)
      (reason : Reason) : Told g s text ⟨p.span, p.text, reason, r.visited g p⟩

namespace Run

/-- The run with other reports, and so many of them. -/
def retold (r : Run) (reports : List Diagnostic) (reported : Nat) : Run :=
  { r with reports, counters := { r.counters with reported } }

/-- **The same run but for its reports**, which are related by `R`, and their number. -/
inductive Alike (R : List Diagnostic → List Diagnostic → Prop) : Run → Run → Prop
  | mk {r : Run} {reports : List Diagnostic} {reported : Nat} (h : R r.reports reports) :
      Alike R r (r.retold reports reported)

/-- Both runs may make the report `d`, each with the trail that its settings allow. -/
def Admits (R : List Diagnostic → List Diagnostic → Prop) (A B : Settings) (d : Diagnostic) : Prop :=
  ∀ l l', R l l' → R (d.cut A :: l) (d.cut B :: l')

namespace Alike

variable {R : List Diagnostic → List Diagnostic → Prop} {g : Grammar} {A B : Settings} {text : List Char} {a b : Run}
  {p : Phrase} {must taken : Bool} {ch : Char} {kind : PhraseKind} {id : NodeId} {c : Change} {took : List Phrase}
  {rest : List Char} {d : Diagnostic}

/-! ### Placing a phrase -/

theorem tree (h : Alike R a b) : b.tree = a.tree := by cases h; rfl

theorem active (h : Alike R a b) : b.active = a.active := by cases h; rfl

theorem buffer (h : Alike R a b) : b.buffer? = a.buffer? := by cases h; rfl

theorem inText_eq (h : Alike R a b) : b.inText = a.inText := by cases h; rfl

theorem count (h : Alike R a b) (f : Counters → Counters)
    (hf : ∀ k n, f { k with reported := n } = { f k with reported := n }) :
    Alike R { a with counters := f a.counters } { b with counters := f b.counters } := by
  cases h with
  | @mk reports reported h =>
    have hcounters : f (a.retold reports reported).counters = { f a.counters with reported } := hf _ _
    rw [hcounters]
    exact .mk h

theorem report (h : Alike R a b) (hd : Admits R A B d) : Alike R (a.report (d.cut A)) (b.report (d.cut B)) := by
  cases h with
  | mk h => exact .mk (hd _ _ h)

theorem tally (h : Alike R a b) (dropped made : Nat) : Alike R (a.tally dropped made) (b.tally dropped made) := by
  cases h with
  | mk h => exact .mk h

theorem change (h : Alike R a b) (id : NodeId) (c : Change) : Alike R (a.change id c) (b.change id c) := by
  cases h with
  | mk h => exact .mk h

theorem adopt (h : Alike R a b) (g : Grammar) (rule : RuleId) (growth : Growth) :
    Alike R (a.adopt g rule growth) (b.adopt g rule growth) := by
  cases h with
  | mk h => exact .mk h

theorem reportLeaving (h : Alike R a b) (g : Grammar) (must taken : Bool) (l : Leaving)
    (hd : ∀ reason, Admits R A B ⟨p.span, p.text, reason, l.asked.map (a.tree.place g)⟩) :
    Alike R (a.reportLeaving g A p must taken l) (b.reportLeaving g B p must taken l) := by
  have hreport : ∀ {x y : Run}, Alike R x y → ∀ reason,
      Alike R (x.report ⟨p.span, p.text, reason, trail g A a.tree l.asked⟩)
        (y.report ⟨p.span, p.text, reason, trail g B a.tree l.asked⟩) := by
    intro x y hxy reason
    unfold trail
    rw [List.map_take, List.map_take]
    exact hxy.report (hd reason)
  -- the phrase itself may be reported first
  have hphrase : ∀ (cond : Bool) (reason : Reason),
      Alike R (if cond then a.report ⟨p.span, p.text, reason, trail g A a.tree l.asked⟩ else a)
        (if cond then b.report ⟨p.span, p.text, reason, trail g B a.tree l.asked⟩ else b) := by
    intro cond reason
    split
    · exact hreport h reason
    · exact h
  unfold Run.reportLeaving
  dsimp only
  rw [h.tree]
  cases l.unfinished? with
  | none => exact hphrase _ _
  | some place =>
    dsimp only
    split
    · exact hreport (hphrase _ _) _
    · exact hphrase _ _

/-- **A phrase is placed alike**, whatever was reported and whatever the settings. -/
theorem resolve (h : Alike R a b) (g : Grammar) (must : Bool)
    (hd : ∀ reason, Admits R A B ⟨p.span, p.text, reason, a.visited g p⟩) :
    Alike R (a.resolve g A p must).1 (b.resolve g B p must).1 ∧
      (b.resolve g B p must).2 = (a.resolve g A p must).2 := by
  have hoffered := h.count (fun k => { k with offered := k.offered + 1 }) fun _ _ => rfl
  have hglobal := hoffered.count (fun k => { k with globalFallbacks := k.globalFallbacks + 1 }) fun _ _ => rfl
  have hancestor := hoffered.count (fun k => { k with ancestorFallbacks := k.ancestorFallbacks + 1 }) fun _ _ => rfl
  unfold Run.visited at hd
  dsimp only at hd
  cases h with
  | mk h =>
    unfold Run.resolve
    dsimp only [retold] at hoffered hglobal hancestor ⊢
    cases (a.tree.offer g p a.active).found? with
    | some c =>
      dsimp only
      exact ⟨(hoffered.tally _ _).change _ c, rfl⟩
    | none =>
      dsimp only
      cases (Tree.offerGlobal g p).found? with
      | some x =>
        dsimp only
        exact ⟨(hglobal.tally _ _).adopt g x.1 x.2, rfl⟩
      | none =>
        dsimp only
        cases htaken : (a.tree.climb g p a.active).taken? with
        | some x =>
          rw [htaken] at hd
          dsimp only at hd ⊢
          exact ⟨((hancestor.tally _ _).change x.1 x.2).reportLeaving g must true _ hd, rfl⟩
        | none =>
          rw [htaken] at hd
          dsimp only at hd ⊢
          exact ⟨(hoffered.tally _ 0).reportLeaving g must false _ hd, rfl⟩

/-! ### Reading -/

theorem clear (h : Alike R a b) : Alike R { a with buffer? := none } { b with buffer? := none } := by
  cases h with
  | mk h => exact .mk h

theorem past (h : Alike R a b) (ch : Char) : Alike R (a.past ch) (b.past ch) := by
  cases h with
  | mk h => exact .mk h

theorem hold (h : Alike R a b) (kind : PhraseKind) (ch : Char) : Alike R (a.hold kind ch) (b.hold kind ch) := by
  cases h with
  | mk h => exact .mk h

theorem grown_eq (h : Alike R a b) (kind : PhraseKind) (ch : Char) : b.grown kind ch = a.grown kind ch := by
  cases h
  rfl

theorem giveBack (h : Alike R a b) : Alike R a.giveBack.1 b.giveBack.1 ∧ b.giveBack.2 = a.giveBack.2 := by
  have htoReread : b.tree.toReread? b.active = a.tree.toReread? a.active := by rw [h.tree, h.active]
  cases hback : a.tree.toReread? a.active with
  | none =>
    rw [giveBack_of_none hback, giveBack_of_none (htoReread.trans hback)]
    exact ⟨h, rfl⟩
  | some x =>
    rw [giveBack_of_some hback, giveBack_of_some (htoReread.trans hback)]
    cases h with
    | mk h => exact ⟨.mk h, rfl⟩

section Read

variable (hR : ∀ d, d.Told g A text → Admits R A B d)

include hR

theorem push (h : Alike R a b) (hr : Reached g A text a took (ch :: rest)) (hin : a.inText = false)
    (hfeeds : a.Feeds g kind ch) : Alike R (a.push g A kind ch) (b.push g B kind ch) := by
  by_cases hkind : kind = .chars
  · subst hkind
    obtain ⟨hresolve, htaken⟩ :=
      (h.hold .chars ch).resolve g false fun reason => hR _ (.placed (.push hr hin hfeeds) reason)
    rw [push_chars, push_chars, h.grown_eq, htaken]
    split
    · exact hresolve.clear
    · exact hresolve
  · rw [push_eq_of_ne hkind, push_eq_of_ne hkind]
    exact h.hold kind ch

theorem skip (h : Alike R a b) (ch : Char) : Alike R (a.skip ch) (b.skip ch) := by
  have hcursor : b.cursor = a.cursor := by cases h; rfl
  unfold Run.skip
  rw [hcursor]
  split
  · exact h.past ch
  · have hreport := (h.past ch).report (hR _ (.unknown ⟨a.cursor, a.cursor.advance ch⟩ (String.singleton ch)))
    simpa [Diagnostic.cut] using hreport

theorem flush (h : Alike R a b) (hr : Reached g A text a took rest) (hin : a.inText = false)
    (hstops : a.Stops g rest) : Alike R (a.flush g A) (b.flush g B) := by
  cases hbuffer : a.buffer? with
  | none =>
    unfold Run.flush
    rw [h.buffer, hbuffer]
    exact h
  | some p =>
    rw [flush_of_some hbuffer, flush_of_some (h.buffer.trans hbuffer)]
    have hturn := Turn.flush hr hin hbuffer (hstops p hbuffer)
    exact (h.resolve g true fun reason => hR _ (.placed hturn reason)).1.clear

/-- **At the end of the text** the phrase being read is placed alike. -/
theorem flush_end (h : Alike R a b) (hr : Reached g A text a took []) : Alike R (a.flush g A) (b.flush g B) := by
  cases hin : a.inText with
  | false => exact h.flush hR hr hin fun _ _ _ hch => nomatch hch
  | true =>
    -- an open text leaves nothing to be placed
    have hbuffer := hr.buffer_of_inText hin
    have hsame : a.flush g A = a := by rw [Run.flush, hbuffer]
    have hsame' : b.flush g B = b := by rw [Run.flush, h.buffer, hbuffer]
    rw [hsame, hsame']
    exact h

theorem readText (h : Alike R a b) (hr : Reached g A text a took (ch :: rest)) (hin : a.inText = true) :
    Alike R (a.readText g A ch).1 (b.readText g B ch).1 ∧ (b.readText g B ch).2 = (a.readText g A ch).2 := by
  have hcursor : b.cursor = a.cursor := by cases h; rfl
  unfold Run.readText Run.takeChar
  rw [hcursor]
  exact ((h.past ch).resolve g true fun reason => hR _ (.placed (.text hr hin) reason)).1.giveBack

/-- **Alike runs go on in lockstep.** -/
theorem lockstep : Lockstep g g A B fun rest a b => Alike R a b ∧ ∃ took, Reached g A text a took rest where
  classes := rfl
  inText h := h.1.inText_eq
  kind h := by rw [h.1.buffer]
  push := by
    rintro ch rest a b kind ⟨h, took, hr⟩ hin hfeeds
    exact ⟨h.push hR hr hin hfeeds, _, hr.read (hfeeds.reads hin A took)⟩
  skip := by
    rintro ch rest a b ⟨h, took, hr⟩ hin hbuffer hstarts
    exact ⟨h.skip hR ch, _, hr.read (.skip hin hbuffer hstarts)⟩
  flush := by
    rintro rest a b ⟨h, took, hr⟩ hin hstops
    exact ⟨h.flush hR hr hin hstops, hr.flush_of_stops hin hstops⟩
  readText := by
    rintro ch rest a b ⟨h, took, hr⟩ hin
    obtain ⟨htext, hagain⟩ := h.readText hR hr hin
    exact ⟨hagain, htext, _, hr.read (.text hin)⟩

/-- **Reading takes alike runs on alike.**  Either both come to the end of what they read or neither does. -/
theorem readAll (h : Alike R a b) (depth : Nat) {chars rest : List Char}
    (hr : ∃ took, Reached g A text a took (chars ++ rest)) :
    Option.Rel (fun a b => Alike R a b ∧ ∃ took, Reached g A text a took rest) (Run.readAll g A depth a chars)
      (Run.readAll g B depth b chars) :=
  (lockstep hR).readAll depth chars rest ⟨h, hr⟩

end Read

end Alike

/-! ### The end of the text -/

variable {g : Grammar} {s : Settings} {text : List Char} {r : Run}

/-- What is unfinished at the end of the text, as it is reported with the trail as a whole. -/
def ending? (g : Grammar) (r : Run) : Option Diagnostic :=
  ((r.tree.chain r.active).find? (r.tree.needsMore g)).map fun id =>
    ⟨.emptyAt r.cursor, "", .unfinishedRule (r.tree.place g id), (r.tree.chain r.active).map (r.tree.place g)⟩

theorem reportEnd_eq (g : Grammar) (s : Settings) (r : Run) :
    r.reportEnd g s = match r.ending? g with
      | some d => r.report (d.cut s)
      | none => r := by
  unfold reportEnd ending?
  dsimp only
  cases (r.tree.chain r.active).find? (r.tree.needsMore g) with
  | none => rfl
  | some id =>
    dsimp only [Option.map_some]
    rw [trail, List.map_take]
    rfl

theorem Alike.ending?_eq {R : List Diagnostic → List Diagnostic → Prop} {a b : Run} (h : Alike R a b) :
    b.ending? g = a.ending? g := by
  cases h
  rfl

/-! ### Counting reports -/

/-- Every report is counted, and nothing else is. -/
def Counts (r : Run) : Prop := r.counters.reported = r.reports.length

theorem Counts.report (h : r.Counts) (d : Diagnostic) : (r.report d).Counts := congrArg (· + 1) h

theorem Counts.reportLeaving {p : Phrase} {must taken : Bool} {l : Leaving} (h : r.Counts) :
    (reportLeaving g s r p must taken l).Counts := by
  unfold Run.reportLeaving
  dsimp only
  have hphrase : ∀ (cond : Bool) (d : Diagnostic), (if cond then r.report d else r).Counts := by
    intro cond d
    split
    · exact h.report d
    · exact h
  cases l.unfinished? with
  | none => exact hphrase _ _
  | some place =>
    dsimp only
    split
    · exact (hphrase _ _).report _
    · exact hphrase _ _

theorem Counts.resolve {p : Phrase} {must : Bool} (h : r.Counts) : (r.resolve g s p must).1.Counts := by
  unfold Run.resolve
  dsimp only
  split
  · exact h
  · split
    · exact h
    · split
      · exact Counts.reportLeaving h
      · exact Counts.reportLeaving h

/-- **In every state of a run the reports are counted.** -/
theorem Passes.counts (h : Passes g s text r) : r.Counts :=
  h.rule (P := Counts) (fun h => h) Counts.resolve (fun h => h) (fun _ h => h.report _) rfl

end Run

end PhraseTree
