import PhraseTree.Proofs.Grammar.Leading
import PhraseTree.Proofs.Run.Arrangement
import PhraseTree.Proofs.Run.OpenText
import PhraseTree.Proofs.Run.Verbatim
import PhraseTree.Proofs.Tree.Laying

/-!
# Runs lay their trees out

Where no path gives anything back, the tree of a run is laid out in every state: what its instances took lies in the text
one after the other.  Nothing lies behind the place where the phrase being read starts, or where the open text started,
but what ends in that text; a text that gives something back ends behind its start, so nothing else has to move.

* `Filed text reports low` — the reports stand in the order of their places, and none starts behind `low`;
* `Run.LaidOut g text r taken low high pos` — the state `r`, which has read the characters up to `pos`, has laid its tree
  out, with nothing behind `low` but what ends in the active instance, and that not behind `high`;
* `Run.LaidOut.flush`, `Run.LaidOut.push`, `Run.LaidOut.skip`, `Run.LaidOut.readText`: what one step preserves;
* `Run.Reached.laidOut`: so every state of a run is laid out;
* `Grammar.read?_in_order`: the tree of every text is in order, and so are its reports.
-/

namespace PhraseTree

variable {g : Grammar} {s : Settings} {text : List Char} {low low' high pos a b : Nat} {p : Phrase}
  {reports new : List Diagnostic}

/-! ### Reports -/

/-- **Reports in the order of their places**, the latest first; none starts behind `low`. -/
structure Filed (text : List Char) (reports : List Diagnostic) (low : Nat) : Prop where
  placed : ∀ d ∈ reports, ∃ a b, d.span = stretch text a b ∧ a ≤ b ∧ b ≤ text.length ∧ a ≤ low
  ordered : reports.Pairwise fun later earlier => earlier.span.start ≤ later.span.start

namespace Filed

theorem nil (text : List Char) (low : Nat) : Filed text [] low := ⟨by simp, List.Pairwise.nil⟩

theorem mono (h : Filed text reports low) (hle : low ≤ low') : Filed text reports low' where
  placed := by
    intro d hd
    obtain ⟨a, b, hspan, hab, hb, ha⟩ := h.placed d hd
    exact ⟨a, b, hspan, hab, hb, ha.trans hle⟩
  ordered := h.ordered

theorem cons {d : Diagnostic} (h : Filed text reports low) (hlen : text.length < 4294967295)
    (hd : d.span = stretch text a b) (hlow : low ≤ a) (hab : a ≤ b) (hb : b ≤ text.length) :
    Filed text (d :: reports) a where
  placed := by
    intro d' hd'
    rcases List.mem_cons.mp hd' with rfl | hd'
    · exact ⟨a, b, hd, hab, hb, le_rfl⟩
    · exact (h.mono hlow).placed d' hd'
  ordered := by
    refine List.pairwise_cons.mpr ⟨fun d' hd' => ?_, h.ordered⟩
    obtain ⟨i, j, hspan, hij, hj, hi⟩ := h.placed d' hd'
    rw [hspan, hd]
    exact stretch_le hlen (hab.trans hb) (hi.trans hlow)

theorem append (h : Filed text reports low) (hlen : text.length < 4294967295)
    (hnew : ∀ d ∈ new, d.span = stretch text a b) (hlow : low ≤ a) (hab : a ≤ b) (hb : b ≤ text.length) :
    Filed text (new ++ reports) a := by
  induction new with
  | nil => exact h.mono hlow
  | cons d new ih =>
    have hrest := ih fun d' hd' => hnew d' (List.mem_cons_of_mem _ hd')
    exact hrest.cons hlen (hnew d List.mem_cons_self) le_rfl hab hb

theorem start_le_stop (h : Filed text reports low) (hlen : text.length < 4294967295) :
    ∀ d ∈ reports, d.span.start ≤ d.span.stop := by
  intro d hd
  obtain ⟨a, b, hspan, hab, hb, -⟩ := h.placed d hd
  rw [hspan]
  exact stretch_le hlen hb hab

end Filed

theorem Grammar.KeepsPaths.forksKeep (h : g.KeepsPaths) : g.ForksKeep := by
  intro rule alternatives hmem
  obtain ⟨r, hr, hpart⟩ := exists_rule_of_mem_parts hmem
  exact h r hr _ hpart

namespace Run

variable {rest : List Char} {r r' : Run} {taken taken' : List Phrase} {must : Bool} {kind : PhraseKind} {ch : Char}

/-- **A state that has laid its tree out.** -/
structure LaidOut (g : Grammar) (text : List Char) (r : Run) (taken : List Phrase) (low high pos : Nat) : Prop where
  tracks : Tracks g (fun _ => True) {} text r taken low pos
  layout : ∃ m, r.tree.Laid text m ∧ m.Below r.tree r.active low high
  reports : Filed text r.reports low

/-- Where no text is open, it does not matter how far back something might have begun. -/
theorem Tracks.raise {keep : Path → Prop} {r₀ : Run} (h : Tracks g keep r₀ text r taken low pos)
    (hin : r.inText = false) (hle : low' ≤ pos)
    (hbuffer : ∀ p, r.buffer? = some p → ∃ a, low' ≤ a ∧ a < pos ∧ Quotes r₀.cursor text p.span p.text.toList a pos) :
    Tracks g keep r₀ text r taken low' pos :=
  { h with tree := h.tree.move (h.tree.closed hin), low_le := hle, buffer := hbuffer }

theorem laidOut_start (g : Grammar) (text : List Char) : LaidOut g text {} [] 0 0 0 where
  tracks := tracks_start
  layout := by
    refine ⟨⟨fun _ => 0, fun _ => 0⟩, Tree.root_laid text _, fun j _ => le_rfl, fun j _ => Or.inl le_rfl⟩
  reports := .nil text 0

namespace LaidOut

/-- Where nothing is being read, only an open text may still end further back. -/
theorem idle (h : LaidOut g text r taken low pos pos) (hbuffer : r.buffer? = none) :
    ∃ low', LaidOut g text r taken low' (if r.inText then pos else low') pos := by
  cases hin : r.inText with
  | true => exact ⟨low, h⟩
  | false =>
    obtain ⟨m, hlaid, hbelow⟩ := h.layout
    exact ⟨pos, h.tracks.raise hin le_rfl (by simp [hbuffer]), ⟨m, hlaid, hbelow.mono h.tracks.low_le le_rfl rfl⟩,
      h.reports.mono h.tracks.low_le⟩

variable (hkeeps : g.ForksKeep) (hlen : text.length < 4294967295) (h : LaidOut g text r taken low low pos)
  (ha : r.tree.Arranged r.active) (hin : r.inText = false)

include hkeeps hlen h ha hin

theorem resolve (hbuffer : ∀ q, r.buffer? = some q → q = p) (hp : Quotes .start text p.span p.text.toList a pos)
    (hlow : low ≤ a) (hlt : a < pos) (s : Settings) (must : Bool) :
    LaidOut g text (r.resolve g s p must).1 (r.takes g s p must taken) a pos pos := by
  have htracks : Tracks g (fun _ => True) {} text r taken a pos := by
    refine h.tracks.raise hin hlt.le fun q hq => ?_
    rw [hbuffer q hq]
    exact ⟨a, le_rfl, hlt, hp⟩
  have hplaces := resolve_places g s r p must
  obtain ⟨m, hlaid, hbelow⟩ := h.layout
  obtain ⟨new, hnew, hquotes, -⟩ := hplaces.reports
  refine ⟨htracks.resolve hin hp le_rfl hlt must, ?_, ?_⟩
  · cases htook : (r.resolve g s p must).2 with
    | true =>
      exact (hplaces.takes htook).laid h.tracks.tree.conforms h.tracks.tree.openOnly ha hkeeps hin hlaid hp.span_eq hlt
        (hbelow.mono hlow hlow rfl)
    | false =>
      obtain ⟨htree, hactive, -⟩ := hplaces.refuses htook
      rw [htree, hactive]
      exact ⟨m, hlaid, hbelow.mono hlow hlow rfl⟩
  · rw [hnew]
    exact h.reports.append hlen (fun d hd => (hquotes d hd).1.trans hp.span_eq) hlow hp.le hp.le_length

theorem flush (hbuffer : r.buffer? = some p) (s : Settings) :
    ∃ low', LaidOut g text (r.flush g s) (r.takes g s p true taken) low'
      (if (r.flush g s).inText then pos else low') pos := by
  obtain ⟨a, hlow, hlt, hp⟩ := h.tracks.buffer p hbuffer
  have hresolve := h.resolve hkeeps hlen ha hin (fun q hq => Option.some.inj (hq.symm.trans hbuffer)) hp hlow hlt s true
  rw [flush_of_some hbuffer]
  exact idle (r := { (r.resolve g s p true).1 with buffer? := none })
    ⟨hresolve.tracks.clear, hresolve.layout, hresolve.reports⟩ rfl

theorem push (hch : text[pos]? = some ch) (s : Settings) (kind : PhraseKind) :
    ∃ low', LaidOut g text (r.push g s kind ch) (r.pushTakes g s kind ch taken) low'
      (if (r.push g s kind ch).inText then pos + 1 else low') (pos + 1) := by
  have hhold : LaidOut g text (r.hold kind ch) taken low low (pos + 1) :=
    ⟨h.tracks.hold hin hch kind, h.layout, h.reports⟩
  have hclosed : (r.hold kind ch).inText = false := hin
  by_cases hkind : kind = .chars
  · subst hkind
    obtain ⟨a, hlow, hlt, hp⟩ := h.tracks.grown hch .chars
    have hresolve := hhold.resolve hkeeps hlen ha hclosed (fun q hq => (Option.some.inj hq).symm) hp hlow hlt s false
    rw [push_chars, pushTakes, if_pos rfl]
    split
    · exact idle (r := { ((r.hold .chars ch).resolve g s (r.grown .chars ch) false).1 with buffer? := none })
        ⟨hresolve.tracks.clear, hresolve.layout, hresolve.reports⟩ rfl
    · next htook =>
      -- what is not taken is read on, and nothing has moved
      obtain ⟨htree, hactive, -⟩ := (resolve_places g s (r.hold .chars ch) (r.grown .chars ch) false).refuses
        (by simpa using htook)
      obtain ⟨m, hlaid, hbelow⟩ := h.layout
      refine ⟨a, hresolve.tracks, ?_, hresolve.reports⟩
      rw [htree, hactive]
      exact ⟨m, hlaid, hbelow.mono hlow hlow rfl⟩
  · rw [push_eq_of_ne hkind, pushTakes, if_neg hkind, hclosed]
    exact ⟨low, hhold⟩

end LaidOut

theorem LaidOut.skip (hlen : text.length < 4294967295) (h : LaidOut g text r taken low low pos) (hin : r.inText = false)
    (hbuffer : r.buffer? = none) (hch : text[pos]? = some ch) :
    LaidOut g text (r.skip ch) taken (pos + 1) (pos + 1) (pos + 1) := by
  obtain ⟨m, hlaid, hbelow⟩ := h.layout
  have hlow := h.tracks.low_le
  have hsame : (r.skip ch).tree = r.tree ∧ (r.skip ch).active = r.active := by
    unfold Run.skip
    split <;> exact ⟨rfl, rfl⟩
  have hclosed : (r.skip ch).inText = false := by
    unfold Run.inText
    rw [hsame.1, hsame.2]
    exact hin
  have hreports : Filed text (r.skip ch).reports pos := by
    unfold Run.skip
    split
    · exact h.reports.mono hlow
    · have hquotes : Quotes .start text ⟨r.cursor, r.cursor.advance ch⟩ [ch] pos (pos + 1) := by
        rw [h.tracks.cursor]
        exact .single hch
      exact h.reports.cons hlen hquotes.span_eq hlow (Nat.le_succ pos) hquotes.le_length
  refine ⟨(h.tracks.skip hin hbuffer hch).raise hclosed le_rfl (by simp [skip_buffer, hbuffer]), ⟨m, ?_, ?_⟩,
    hreports.mono (Nat.le_succ pos)⟩
  · rw [hsame.1]
    exact hlaid
  · exact hbelow.mono (by omega) (by omega) (by rw [hsame.1])

/-- **A character goes into an open text**, and nothing is reported.  Where the text gives something back, nothing lies
behind the place from which that is read again. -/
theorem LaidOut.readText (hkeeps : g.ForksKeep) (hlen : text.length < 4294967295)
    (h : LaidOut g text r taken low pos pos) (ha : r.tree.Arranged r.active) (hin : r.inText = true)
    (hbuffer : r.buffer? = none) (hch : text[pos]? = some ch)
    (hcalm : (r.readText g s ch).2 ≠ [] →
      ∀ part c, (r.readText g s ch).1.tree.Has g (fun _ => True) part c → c.inText = false) :
    ∃ low' pos', LaidOut g text (r.readText g s ch).1 (r.textTakes g s ch taken) low'
      (if (r.readText g s ch).1.inText then pos' else low') pos' ∧
        (r.readText g s ch).2 ++ text.drop (pos + 1) = text.drop pos' := by
  have hconforms := h.tracks.tree.conforms
  obtain ⟨hafter, hgives⟩ := h.tracks.takeChar (s := s) hin hbuffer hch
  have hquotes : Quotes .start text _ _ pos (pos + 1) := .phrase hch .chars
  rw [← show r.cursor = _ from h.tracks.cursor] at hquotes
  have htakes := (resolve_places g s (r.past ch) (.single .chars r.cursor ch) true).takes
    (resolve_of_inText (r := r.past ch) hconforms hin)
  obtain ⟨m, hlaid, hbelow⟩ := h.layout
  obtain ⟨m', e, hlaid', hbelow', hle, hnone, hsome⟩ :=
    htakes.laid_inText h.tracks.tree ha hkeeps hin hlaid hquotes h.tracks.low_le hlen hbelow
  have hreports : (r.takeChar g s ch).reports = r.reports := by
    obtain ⟨e, hoffer⟩ := hconforms.offer_eq_of_inText hin (.single .chars r.cursor ch)
    rw [takeChar, resolve_of_replace (r := r.past ch) hoffer]
    rfl
  have hfiled : Filed text (r.takeChar g s ch).reports low := by
    rw [hreports]
    exact h.reports
  have htaken : (r.past ch).takes g s (.single .chars r.cursor ch) true taken = .single .chars r.cursor ch :: taken :=
    takes_of_inText (r := r.past ch) hconforms hin
  rw [textTakes, htaken]
  cases hback : (r.takeChar g s ch).tree.toReread? (r.takeChar g s ch).active with
  | none =>
    obtain rfl := hnone hback
    rw [Run.readText, giveBack_of_none hback]
    obtain ⟨low', hidle⟩ := idle (r := r.takeChar g s ch) ⟨hafter, ⟨m', hlaid', hbelow'⟩, hfiled⟩
      (takeChar_buffer.trans hbuffer)
    exact ⟨low', pos + 1, hidle, rfl⟩
  | some again =>
    obtain ⟨phrase, start⟩ := again
    obtain ⟨b, hgives⟩ := hgives (fun _ _ => trivial) phrase start hback
    have hb := hgives.lt_pos
    have hlow := hgives.low_lt
    have hend := hafter.pos_le
    -- what ends in the text ends where the reading goes on
    obtain rfl : e = b :=
      cursorAt_inj hlen (by omega) (by omega) ((hsome phrase start hback).symm.trans hgives.start_eq)
    have hne : phrase.toList ≠ [] := by
      rw [← List.length_pos_iff, hgives.length_eq hend]
      omega
    rw [Run.readText, giveBack_of_some hback] at hcalm ⊢
    refine ⟨e, e, ⟨?_, ⟨m', hlaid'.settle _, ?_⟩, hfiled.mono hlow.le⟩, ?_⟩
    · exact {
        tree := (hafter.tree.settle _).move (hcalm hne)
        low_le := le_rfl
        pos_le := by omega
        cursor := hgives.start_eq
        buffer := by simp [takeChar_buffer, hbuffer]
        reports := hafter.reports }
    · rw [ite_self]
      exact (hbelow'.settle _).mono hlow.le le_rfl rfl
    · dsimp only
      rw [hgives.phrase_eq, slice_append_drop hb.le]

/-! ### Whole runs -/

theorem Reached.laidOut (h : Reached g s text r taken rest) (hkeeps : g.KeepsPaths)
    (hlen : text.length < 4294967295) :
    ∃ low pos, LaidOut g text r taken low (if r.inText then pos else low) pos ∧ rest = text.drop pos := by
  have hforks := hkeeps.forksKeep
  have hcalm : g.Calm s (fun _ => True) text := hkeeps.apart.calm s text
  induction h with
  | start => exact ⟨0, 0, laidOut_start g text, rfl⟩
  | @flush r taken rest p h hin hbuffer hend ih =>
    obtain ⟨low, pos, hlaid, hrest⟩ := ih
    rw [hin] at hlaid
    obtain ⟨low', hflush⟩ :=
      LaidOut.flush hforks hlen hlaid (Passes.reached h).tree_arranged hin hbuffer s
    exact ⟨low', pos, hflush, hrest⟩
  | @read r r' taken taken' ch again rest h hread ih =>
    obtain ⟨low, pos, hlaid, hrest⟩ := ih
    obtain ⟨hch, hdrop⟩ := of_cons_eq_drop hrest
    have ha := (Passes.reached h).tree_arranged
    have hquiet := hcalm _ _ _ _ _ _ _ h hread
    cases hread with
    | lengthen hin | begin hin =>
      rw [hin] at hlaid
      obtain ⟨low', hpush⟩ := LaidOut.push hforks hlen hlaid ha hin hch s _
      exact ⟨low', pos + 1, hpush, hdrop⟩
    | skip hin hbuffer =>
      rw [hin] at hlaid
      refine ⟨pos + 1, pos + 1, ?_, hdrop⟩
      rw [ite_self]
      exact LaidOut.skip hlen hlaid hin hbuffer hch
    | text hin =>
      rw [if_pos hin] at hlaid
      obtain ⟨low', pos', htext, hagain⟩ :=
        hlaid.readText hforks hlen ha hin (h.buffer_of_inText hin) hch hquiet
      exact ⟨low', pos', htext, by rw [hdrop]; exact hagain⟩

/-- **At the end of a run the tree is in order**, and so are the reports. -/
theorem Ends.in_order (h : Ends g s text r taken) (hkeeps : g.KeepsPaths) (hlen : text.length < 4294967295) :
    r.tree.InOrder ∧ r.cursor = cursorAt .start text text.length ∧ Filed text r.reports text.length := by
  obtain ⟨low, pos, ⟨htracks, ⟨m, hlaid, hbelow⟩, hfiled⟩, hrest⟩ := h.reached.laidOut hkeeps hlen
  have hlow := htracks.low_le
  have hpos : pos = text.length := by
    have hle := List.drop_eq_nil_iff.mp hrest.symm
    have := htracks.pos_le
    omega
  subst hpos
  refine ⟨hlaid.inOrder (Passes.reached h.reached).tree_arranged htracks.tree.conforms hlen fun j hj => ?_,
    htracks.cursor, hfiled.mono hlow⟩
  rcases hbelow.stop_le j hj with hle | ⟨-, hle⟩
  · omega
  · split at hle <;> omega

end Run

/-- **Everything is in the order of the text.**  Where no path gives anything back, every text is read to its end.  Then
each entry of each instance covers a stretch that is not empty and ends before the next one starts, or where it starts;
an instance covers the smallest stretch that holds its entries, so its children lie inside it and beside each other; the
instances of global rules made on its behalf are in order in the same way; and the reports stand in the order of their
places, none ending before it starts. -/
theorem Grammar.read?_in_order (s : Settings) (hkeeps : g.KeepsPaths) (hlen : text.length < 4294967295) :
    ∃ r, g.read? s text = some r ∧ r.tree.InOrder ∧
      (r.reports.reverse.Pairwise fun earlier later => earlier.span.start ≤ later.span.start) ∧
        ∀ d ∈ r.reports, d.span.start ≤ d.span.stop := by
  have hcalm : g.Calm s (fun _ => True) text := hkeeps.apart.calm s text
  obtain ⟨r, taken, hends, hread⟩ := hcalm.read?_ends fun _ _ => trivial
  obtain ⟨hinOrder, hcursor, hfiled⟩ := hends.in_order hkeeps hlen
  suffices h : ∀ r' : Run, r'.tree = r.tree → Filed text r'.reports text.length →
      r'.tree.InOrder ∧ (r'.reports.reverse.Pairwise fun earlier later => earlier.span.start ≤ later.span.start) ∧
        ∀ d ∈ r'.reports, d.span.start ≤ d.span.stop by
    refine ⟨_, hread, ?_⟩
    split
    · obtain ⟨htree, -, hreports⟩ := r.reportEnd_cases g s
      refine h _ htree ?_
      rcases hreports with hreports | ⟨place, trail, hreports⟩
      · rw [hreports]
        exact hfiled
      · rw [hreports]
        exact hfiled.cons hlen (by rw [hcursor]; rfl) le_rfl le_rfl le_rfl
    · exact h r rfl hfiled
  intro r' htree hfiled
  exact ⟨by rw [htree]; exact hinOrder, List.pairwise_reverse.mpr hfiled.ordered, hfiled.start_le_stop hlen⟩

/-- Two items; the remark of the first gives back the stop, which is reported. -/
theorem Listing.in_order_listing :
    (grammar false).KeepsPaths ∧
      ∃ r, (grammar false).read? {} ['a', ' ', '1', '#', '?', '.', ' ', 'b', '<', 'c', '>'] = some r ∧
        (r.tree.children 0).map r.tree.span? = [some ⟨⟨1, 1⟩, ⟨1, 6⟩⟩, some ⟨⟨1, 8⟩, ⟨1, 12⟩⟩] ∧
        r.reports.map (·.span) = [⟨⟨1, 6⟩, ⟨1, 7⟩⟩] ∧ r.tree.InOrder ∧
        (r.reports.reverse.Pairwise fun earlier later => earlier.span.start ≤ later.span.start) ∧
          ∀ d ∈ r.reports, d.span.start ≤ d.span.stop := by
  have hkeeps : (grammar false).KeepsPaths := by decide +kernel
  have hspans : ((grammar false).read? {} ['a', ' ', '1', '#', '?', '.', ' ', 'b', '<', 'c', '>']).map
      (fun r => ((r.tree.children 0).map r.tree.span?, r.reports.map (·.span))) =
        some ([some ⟨⟨1, 1⟩, ⟨1, 6⟩⟩, some ⟨⟨1, 8⟩, ⟨1, 12⟩⟩], [⟨⟨1, 6⟩, ⟨1, 7⟩⟩]) := by
    decide +kernel
  have hlen : ['a', ' ', '1', '#', '?', '.', ' ', 'b', '<', 'c', '>'].length < 4294967295 := by decide
  obtain ⟨r, hread, hinOrder⟩ := Grammar.read?_in_order {} hkeeps hlen
  rw [hread, Option.map_some, Option.some_inj, Prod.mk.injEq] at hspans
  exact ⟨hkeeps, r, hread, hspans.1, hspans.2, hinOrder⟩

end PhraseTree
