import PhraseTree.Proofs.Diagnostic.Shape

/-!
# Stored diagnostics

Writer and reader of every stored type keep to its shape (`Cursor.stores`, `Span.stores`, `Place.stores`, `Reason.stores`,
`Diagnostic.stores`).

A reason and its place stand in one record, so a reason is read in two steps: the tag names the variant, and the variant
says whether a place is read from the same record.

`Diagnostic.round_trip` puts it together for whole diagnostics.
-/

namespace PhraseTree

theorem stores_word32 : Stores (.word 4294967296) (fun n : UInt32 => .whole n.toNat) Datum.word32? :=
  .word UInt32.toNat_lt (fun _ => UInt32.ofNat_toNat) fun _ h => UInt32.toNat_ofNat_of_lt' h

theorem stores_word64 : Stores (.word 18446744073709551616) (fun n : UInt64 => .whole n.toNat) Datum.word64? :=
  .word UInt64.toNat_lt (fun _ => UInt64.ofNat_toNat) fun _ h => UInt64.toNat_ofNat_of_lt' h

variable {d : Datum}

/-! ### Cursors, spans and places -/

namespace Cursor

/-- The shape of a stored cursor. -/
def shape : Shape := .record [("line", .word 4294967296), ("column", .word 4294967296)]

theorem stores : Stores shape toDatum ofDatum? :=
  .record_pair Cursor.mk (fun _ => ⟨_, _, rfl⟩) stores_word32 stores_word32 (by decide) (fun _ _ => rfl) fun _ => rfl

end Cursor

namespace Span

/-- The shape of a stored span. -/
def shape : Shape := .record [("start", Cursor.shape), ("end", Cursor.shape)]

theorem stores : Stores shape toDatum ofDatum? :=
  .record_pair Span.mk (fun _ => ⟨_, _, rfl⟩) Cursor.stores Cursor.stores (by decide) (fun _ _ => rfl) fun _ => rfl

end Span

namespace Place

/-- The fields of a place, with their shapes. -/
def known : List (String × Shape) := [("rule", .text), ("part", .word 18446744073709551616)]

/-- The shape of a stored place. -/
def shape : Shape := .record known

theorem stores : Stores shape toDatum ofDatum? :=
  .record_pair Place.mk (fun _ => ⟨_, _, rfl⟩) .text stores_word64 (by decide) (fun _ _ => rfl) fun _ => rfl

theorem normalFields_known {p : Place} (h : ofDatum? d = some p) : Shape.normalFields names known d = p.fields := by
  have hwrite := stores.write_read h
  rw [shape, Shape.normal_record, toDatum] at hwrite
  exact (Datum.record.inj hwrite).symm

end Place

/-! ### Reasons -/

namespace Reason

/-- The fields that stand beside the name of a reason. -/
def known : Reason → List (String × Shape)
  | .unknownCharacter => []
  | .unfinishedRule _ | .unexpectedPhrase _ => Place.known

/-- The fields beside the name, for each of the names. -/
def variants : List (String × List (String × Shape)) :=
  [("unknown_character", []), ("unfinished_rule", Place.known), ("unexpected_phrase", Place.known)]

/-- The shape of a stored reason. -/
def shape : Shape := .tagged "type" variants

variable {r : Reason}

theorem mem_variants_iff {known : List (String × Shape)} : (r.label, known) ∈ variants ↔ known = r.known := by
  cases r <;> simp [variants, label, Reason.known]

theorem tag?_of_read (h : ofDatum? d = some r) : d.tag? "type" = some (.text r.label) := by
  obtain ⟨⟨v, hv, htext⟩, -⟩ := ofDatum?_eq_some_iff.mp h
  rw [hv, Datum.text?_eq_some_iff.mp htext]

theorem normalFields_known (h : ofDatum? d = some r) :
    Shape.normalFields (r.known.map Prod.fst) r.known (d.content "type") = (r.place?.map Place.fields).getD [] := by
  have hcontent := (ofDatum?_eq_some_iff.mp h).2
  cases r with
  | unknownCharacter => rfl
  | unfinishedRule p | unexpectedPhrase p => exact Place.normalFields_known hcontent

theorem not_fault_content (h : ofDatum? d = some r) : ¬ Shape.Fault (.record r.known) (d.content "type") := by
  have hcontent := (ofDatum?_eq_some_iff.mp h).2
  cases r with
  | unknownCharacter => exact Shape.not_fault_record_iff.mpr ⟨hcontent, List.forall_mem_nil _⟩
  | unfinishedRule p | unexpectedPhrase p => exact (Place.stores.readable_iff _).mp ⟨p, hcontent⟩

/-- A known name, and beside it fields without faults, make a reason. -/
theorem exists_of_sound {label : String} (htag : d.tag? "type" = some (.text label))
    (hknown : label ∈ variants.map Prod.fst)
    (hsound : ∀ known, (label, known) ∈ variants → ¬ Shape.Fault (.record known) (d.content "type")) :
    ∃ r, ofDatum? d = some r := by
  simp only [variants, List.map_cons, List.map_nil, List.mem_cons, List.not_mem_nil, or_false] at hknown
  rcases hknown with rfl | rfl | rfl
  · have hcontent := Shape.not_fault_record_iff.mp (hsound [] (by simp [variants]))
    exact ⟨.unknownCharacter, ofDatum?_eq_some_iff.mpr ⟨⟨_, htag, rfl⟩, hcontent.1⟩⟩
  · obtain ⟨p, hp⟩ := (Place.stores.readable_iff _).mpr (hsound Place.known (by simp [variants]))
    exact ⟨.unfinishedRule p, ofDatum?_eq_some_iff.mpr ⟨⟨_, htag, rfl⟩, hp⟩⟩
  · obtain ⟨p, hp⟩ := (Place.stores.readable_iff _).mpr (hsound Place.known (by simp [variants]))
    exact ⟨.unexpectedPhrase p, ofDatum?_eq_some_iff.mpr ⟨⟨_, htag, rfl⟩, hp⟩⟩

theorem stores : Stores shape toDatum ofDatum? where
  read_write r := by
    refine ofDatum?_eq_some_iff.mpr ?_
    cases r with
    | unknownCharacter => exact ⟨⟨_, rfl, rfl⟩, rfl⟩
    | unfinishedRule p | unexpectedPhrase p => exact ⟨⟨_, rfl, rfl⟩, Place.stores.read_write p⟩
  write_read {d r} h := by
    rw [shape, Shape.normal_tagged, tag?_of_read h, toDatum, ← normalFields_known h]
    cases r <;> rfl
  readable_iff d := by
    rw [shape, Shape.not_fault_tagged_iff]
    constructor
    · rintro ⟨r, hr⟩
      refine ⟨r.label, tag?_of_read hr, List.mem_map_of_mem (mem_variants_iff.mpr rfl), fun known hmem => ?_⟩
      -- No two variants have one name, so the tag leaves the fields of the reason.
      rw [mem_variants_iff.mp hmem]
      exact not_fault_content hr
    · rintro ⟨label, htag, hknown, hsound⟩
      exact exists_of_sound htag hknown hsound

end Reason

/-! ### Diagnostics -/

namespace Diagnostic

/-- The fields of a diagnostic, with their shapes. -/
def known : List (String × Shape) :=
  [("position", Span.shape), ("content", .text), ("reason", Reason.shape), ("trail", .list Place.shape)]

/-- The shape of a stored diagnostic. -/
def shape : Shape := .record known

theorem stores_trail : Stores (.list Place.shape) (fun trail => .list (trail.map Place.toDatum)) trail? :=
  Place.stores.list

theorem stores : Stores shape toDatum ofDatum? where
  read_write x := ofDatum?_eq_some_iff.mpr ⟨⟨_, rfl, Span.stores.read_write _⟩, ⟨_, rfl, rfl⟩,
    ⟨_, rfl, Reason.stores.read_write _⟩, _, rfl, stores_trail.read_write _⟩
  write_read h := by
    obtain ⟨hspan, hcontent, hreason, htrail⟩ := ofDatum?_eq_some_iff.mp h
    rw [shape, Shape.normal_record]
    change _ = Datum.record (Shape.normalFields names known _)
    rw [known, Span.stores.normalFields_cons hspan, Stores.text.normalFields_cons hcontent,
      Reason.stores.normalFields_cons hreason, stores_trail.normalFields_cons htrail]
    rfl
  readable_iff d := by
    rw [shape, Shape.not_fault_record_iff]
    change _ ↔ d.hasFields names ∧ ∀ f ∈ known, f.2.Sound names f.1 d
    simp only [known, List.forall_mem_cons]
    constructor
    · rintro ⟨x, hx⟩
      obtain ⟨hspan, hcontent, hreason, htrail⟩ := ofDatum?_eq_some_iff.mp hx
      exact ⟨hspan.hasFields, Span.stores.sound_of_gives hspan, Stores.text.sound_of_gives hcontent,
        Reason.stores.sound_of_gives hreason, stores_trail.sound_of_gives htrail, List.forall_mem_nil _⟩
    · rintro ⟨hfields, hspan, hcontent, hreason, htrail, -⟩
      obtain ⟨span, hspan⟩ := Span.stores.exists_gives hfields (by decide) hspan
      obtain ⟨content, hcontent⟩ := Stores.text.exists_gives hfields (by decide) hcontent
      obtain ⟨reason, hreason⟩ := Reason.stores.exists_gives hfields (by decide) hreason
      obtain ⟨trail, htrail⟩ := stores_trail.exists_gives hfields (by decide) htrail
      exact ⟨⟨span, content, reason, trail⟩, ofDatum?_eq_some_iff.mpr ⟨hspan, hcontent, hreason, htrail⟩⟩

/-- **What is stored is read back.**  Every diagnostic is; whatever can be read is stored again in its normal form, with the
known fields at every level and records for all structures; and what cannot be read has a fault: at some level a field is
missing, repeated or of the wrong type, a list in the place of a structure has too few or too many items, a tag is unknown,
or a number is negative, fractional or out of range. -/
theorem round_trip :
    (∀ x : Diagnostic, ofDatum? x.toDatum = some x) ∧
      (∀ (d : Datum) (x : Diagnostic), ofDatum? d = some x → x.toDatum = shape.normal d) ∧
      ∀ d : Datum, ofDatum? d = none ↔ shape.Fault d :=
  ⟨stores.read_write, fun _ _ => stores.write_read, stores.read_eq_none_iff⟩

end Diagnostic

namespace Remark

/-- A stored remark, with fields in another order and more of them than are known: beside the tag, inside the span and
inside the trail. -/
def stored : Datum :=
  .record [("severity", .text "advisory"), ("trail", .list [.record [("part", .whole 18446744073709551615),
      ("depth", .fraction 15 1), ("rule", .text "List")]]),
    ("content", .text "€"), ("reason", .record [("part", .whole (-1)), ("type", .text "unknown_character")]),
    ("position", .record [("start", .list [.whole 1, .whole 8]), ("file", .null),
      ("end", .record [("line", .whole 1), ("column", .whole 4294967295), ("byte", .whole 9)])])]

/-- The remark that it holds. -/
def remark : Diagnostic := ⟨⟨⟨1, 8⟩, ⟨1, 4294967295⟩⟩, "€", .unknownCharacter, [⟨"List", 18446744073709551615⟩]⟩

/-- It is read, and its number in vain, beside the tag of a reason without a place, does no harm. -/
theorem normal_stored : Diagnostic.ofDatum? stored = some remark ∧ remark.toDatum = Diagnostic.shape.normal stored := by
  have hread : Diagnostic.ofDatum? stored = some remark := by decide
  exact ⟨hread, Diagnostic.round_trip.2.1 stored remark hread⟩

/-- A remark with none but known fields, of which the span stands as a list of lists. -/
def listed : Datum :=
  .record [("position", .list [.list [.whole 1, .whole 8], .list [.whole 1, .whole 9]]), ("content", .text "€"),
    ("reason", .record [("type", .text "unknown_character")]), ("trail", .list [])]

/-- The remark that it holds. -/
def lone : Diagnostic := ⟨⟨⟨1, 8⟩, ⟨1, 9⟩⟩, "€", .unknownCharacter, []⟩

/-- The same remark with one of its fields twice. -/
def repeated : Datum :=
  .record [("position", lone.span.toDatum), ("content", .text "€"), ("content", .text "€"),
    ("reason", lone.reason.toDatum), ("trail", .list [])]

/-- **A list in the place of a structure** is read, and the structure is not written as it was read.  No field may
stand twice, even if both say the same. -/
theorem listed_rewritten : Diagnostic.ofDatum? listed = some lone ∧
    listed.field? Diagnostic.names "position" = some (.list [.list [.whole 1, .whole 8], .list [.whole 1, .whole 9]]) ∧
    lone.toDatum.field? Diagnostic.names "position" = some lone.span.toDatum ∧ lone.toDatum ≠ listed ∧
    Diagnostic.ofDatum? repeated = none := by
  refine ⟨by decide, rfl, rfl, fun h => ?_, by decide⟩
  cases h

end Remark

end PhraseTree
