import PhraseTree.Diagnostic
import PhraseTree.Phrase

/-!
# Stored diagnostics

Diagnostics are stored as JSON values: null, truth values, numbers, texts, lists and records.  Every type has a writer
`toDatum` and a reader `ofDatum?`.

* A structure is written as a record.  It is read from a record in which every field of the structure occurs once, with
  whatever others beside, and also from the list of just its fields, in their order (`Datum.hasFields`, `Datum.field?`).
* A reason is written as one record: the field `type` names it, and the fields of its place, if it has one, stand beside.
  Where a list stands for it, the name comes first (`Datum.tag?`, `Datum.content`).
* A number has to be whole and to fit its word.

What the readers of reasons and of diagnostics ask of the fields stands beside them (`Reason.ofDatum?_eq_some_iff`,
`Diagnostic.ofDatum?_eq_some_iff`).
-/

namespace PhraseTree

/-- A JSON value. -/
inductive Datum where
  | null
  | bool (b : Bool)
  /-- A number written without a fraction or an exponent, minus zero excepted. -/
  | whole (n : Int)
  /-- Any other number: `digits` with the point before the last `places` of them. -/
  | fraction (digits : Int) (places : Nat)
  | text (s : String)
  | list (items : List Datum)
  | record (fields : List (String × Datum))
deriving Inhabited

namespace Datum

/-- Whether the value can stand for a structure with these fields: a record that has each of them once, or a list of as
many items. -/
def hasFields (names : List String) : Datum → Bool
  | .record fields => names.all fun name => (fields.map Prod.fst).count name == 1
  | .list items => items.length == names.length
  | _ => false

/-- A field of a structure with the fields `names`. -/
def field? (names : List String) (name : String) (d : Datum) : Option Datum :=
  if d.hasFields names then
    match d with
    | .record fields => fields.lookup name
    | .list items => items[names.idxOf name]?
    | _ => none
  else none

/-- What says of which kind a structure is: the only field `tag`, or the first item. -/
def tag? (tag : String) : Datum → Option Datum
  | .list items => items.head?
  | d => d.field? [tag] tag

/-- The structure without what says of which kind it is. -/
def content (tag : String) : Datum → Datum
  | .record fields => .record (fields.filter fun f => f.1 != tag)
  | .list items => .list items.tail
  | d => d

/-- The text, if the value is one. -/
def text? : Datum → Option String
  | .text s => some s
  | _ => none

/-- The items, if the value is a list. -/
def list? : Datum → Option (List Datum)
  | .list items => some items
  | _ => none

/-- The field of that name reads as `a`. -/
def Gives {α : Type} (d : Datum) (names : List String) (name : String) (read? : Datum → Option α) (a : α) : Prop :=
  ∃ v, d.field? names name = some v ∧ read? v = some a

/-- A whole number from zero up to and without `bound`. -/
def below? (bound : Nat) : Datum → Option Nat
  | .whole (.ofNat n) => if n < bound then some n else none
  | _ => none

/-- A whole number that fits 32 bits. -/
def word32? (d : Datum) : Option UInt32 := (d.below? 4294967296).map UInt32.ofNat

/-- A whole number that fits 64 bits. -/
def word64? (d : Datum) : Option UInt64 := (d.below? 18446744073709551616).map UInt64.ofNat

/-- The name of a choice: a text, or a record whose only field has that name and is null. -/
def label? : Datum → Option String
  | .text s => some s
  | .record [(s, .null)] => some s
  | _ => none

end Datum

/-! ## cursors and spans -/

namespace Cursor

def toDatum (c : Cursor) : Datum :=
  .record [("line", .whole c.line.toNat), ("column", .whole c.column.toNat)]

/-- The fields of a cursor. -/
def names : List String := ["line", "column"]

def ofDatum? (d : Datum) : Option Cursor := do
  let line ← (← d.field? names "line").word32?
  let column ← (← d.field? names "column").word32?
  return ⟨line, column⟩

end Cursor

namespace Span

def toDatum (s : Span) : Datum := .record [("start", s.start.toDatum), ("end", s.stop.toDatum)]

/-- The fields of a span. -/
def names : List String := ["start", "end"]

def ofDatum? (d : Datum) : Option Span := do
  let start ← Cursor.ofDatum? (← d.field? names "start")
  let stop ← Cursor.ofDatum? (← d.field? names "end")
  return ⟨start, stop⟩

end Span

/-! ## kinds and severities -/

namespace PhraseKind

/-- The name under which a kind is stored. -/
def label : PhraseKind → String
  | .word => "word"
  | .number => "number"
  | .chars => "chars"

/-- The kind of that name. -/
def ofLabel? : String → Option PhraseKind
  | "word" => some .word
  | "number" => some .number
  | "chars" => some .chars
  | _ => none

def toDatum (k : PhraseKind) : Datum := .text k.label

def ofDatum? (d : Datum) : Option PhraseKind := d.label?.bind ofLabel?

end PhraseKind

namespace Severity

/-- The name under which a severity is stored. -/
def label : Severity → String
  | .advisory => "Advisory"
  | .fatal => "Fatal"

/-- The severity of that name. -/
def ofLabel? : String → Option Severity
  | "Advisory" => some .advisory
  | "Fatal" => some .fatal
  | _ => none

def toDatum (s : Severity) : Datum := .text s.label

def ofDatum? (d : Datum) : Option Severity := d.label?.bind ofLabel?

end Severity

/-! ## places, reasons and diagnostics -/

namespace Place

/-- The names of the fields of a place. -/
def names : List String := ["rule", "part"]

/-- The fields of a place, which may stand beside others. -/
def fields (p : Place) : List (String × Datum) := [("rule", .text p.rule), ("part", .whole p.part.toNat)]

def toDatum (p : Place) : Datum := .record p.fields

def ofDatum? (d : Datum) : Option Place := do
  let rule ← (← d.field? names "rule").text?
  let part ← (← d.field? names "part").word64?
  return ⟨rule, part⟩

end Place

namespace Reason

/-- The name under which a reason is stored. -/
def label : Reason → String
  | .unknownCharacter => "unknown_character"
  | .unfinishedRule _ => "unfinished_rule"
  | .unexpectedPhrase _ => "unexpected_phrase"

def toDatum (r : Reason) : Datum :=
  .record (("type", .text r.label) :: (r.place?.map Place.fields).getD [])

def ofDatum? (d : Datum) : Option Reason := do
  let content := d.content "type"
  match ← (← d.tag? "type").text? with
  | "unknown_character" => if content.hasFields [] then some .unknownCharacter else none
  | "unfinished_rule" => (Place.ofDatum? content).map .unfinishedRule
  | "unexpected_phrase" => (Place.ofDatum? content).map .unexpectedPhrase
  | _ => none

/-- A reason is read in two steps: its name, and the place beside it or that nothing is missing beside it. -/
theorem ofDatum?_eq_some_iff {d : Datum} {r : Reason} : ofDatum? d = some r ↔
    (∃ v, d.tag? "type" = some v ∧ v.text? = some r.label) ∧
      match r.place? with
      | some p => Place.ofDatum? (d.content "type") = some p
      | none => (d.content "type").hasFields [] := by
  simp only [ofDatum?, Option.bind_eq_bind, Option.bind_eq_some_iff]
  constructor
  · rintro ⟨v, hv, label, hlabel, h⟩
    split at h
    · split at h
      · next hfields => cases h; exact ⟨⟨v, hv, hlabel⟩, hfields⟩
      · cases h
    · obtain ⟨p, hp, rfl⟩ := Option.map_eq_some_iff.mp h
      exact ⟨⟨v, hv, hlabel⟩, hp⟩
    · obtain ⟨p, hp, rfl⟩ := Option.map_eq_some_iff.mp h
      exact ⟨⟨v, hv, hlabel⟩, hp⟩
    · cases h
  · rintro ⟨⟨v, hv, hlabel⟩, hcontent⟩
    refine ⟨v, hv, r.label, hlabel, ?_⟩
    cases r with
    | unknownCharacter => exact if_pos hcontent
    | unfinishedRule p | unexpectedPhrase p => exact Option.map_eq_some_iff.mpr ⟨p, hcontent, rfl⟩

end Reason

namespace Diagnostic

def toDatum (d : Diagnostic) : Datum :=
  .record [("position", d.span.toDatum), ("content", .text d.content), ("reason", d.reason.toDatum),
    ("trail", .list (d.trail.map Place.toDatum))]

/-- The fields of a diagnostic. -/
def names : List String := ["position", "content", "reason", "trail"]

def ofDatum? (d : Datum) : Option Diagnostic := do
  let span ← Span.ofDatum? (← d.field? names "position")
  let content ← (← d.field? names "content").text?
  let reason ← Reason.ofDatum? (← d.field? names "reason")
  let trail ← (← (← d.field? names "trail").list?).mapM Place.ofDatum?
  return ⟨span, content, reason, trail⟩

/-- The reader of trails. -/
abbrev trail? (d : Datum) : Option (List Place) := d.list?.bind (·.mapM Place.ofDatum?)

theorem ofDatum?_eq_some_iff {d : Datum} {x : Diagnostic} : ofDatum? d = some x ↔
    d.Gives names "position" Span.ofDatum? x.span ∧ d.Gives names "content" Datum.text? x.content ∧
      d.Gives names "reason" Reason.ofDatum? x.reason ∧ d.Gives names "trail" trail? x.trail := by
  simp only [ofDatum?, Datum.Gives, trail?, Option.bind_eq_bind, Option.bind_eq_some_iff]
  constructor
  · rintro ⟨v, hv, span, hspan, w, hw, content, hcontent, u, hu, reason, hreason, t, ht, items, hitems, trail, htrail, h⟩
    cases h
    exact ⟨⟨v, hv, hspan⟩, ⟨w, hw, hcontent⟩, ⟨u, hu, hreason⟩, t, ht, items, hitems, htrail⟩
  · rintro ⟨⟨v, hv, hspan⟩, ⟨w, hw, hcontent⟩, ⟨u, hu, hreason⟩, t, ht, items, hitems, htrail⟩
    exact ⟨v, hv, _, hspan, w, hw, _, hcontent, u, hu, _, hreason, t, ht, items, hitems, _, htrail, rfl⟩

end Diagnostic

end PhraseTree
