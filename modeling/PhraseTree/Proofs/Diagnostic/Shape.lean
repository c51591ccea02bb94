import PhraseTree.Diagnostic.Record
import Mathlib.Data.List.Nodup
import Mathlib.Tactic.ByContra

/-!
# Shapes of stored values

A `Shape` says what a reader wants of a JSON value: a text, a whole number below a bound, a list, a structure with certain
fields, or one of which a tag says which fields it has.

* `Shape.normal`: the value in its normal form, in which structures are records of just the known fields, at every level;
* `Shape.Fault`: what stands in the way of reading the value, there or at some level below;
* `Stores shape write read?` — writer and reader agree, and both keep to the shape.

Readers of parts make readers of the whole: `Stores.list` for lists, `Stores.record_pair` for structures of two fields, and
for others `Shape.not_fault_record_iff` with `Stores.normalFields_cons`, `Stores.sound_of_gives` and `Stores.exists_gives`
for each field.
-/

namespace PhraseTree

/-- What is wanted of a JSON value. -/
inductive Shape where
  | text
  /-- A whole number from zero up to and without `bound`. -/
  | word (bound : Nat)
  | list (item : Shape)
  /-- A structure with these fields. -/
  | record (known : List (String × Shape))
  /-- A structure of which `tag` names the variant, with the fields of that variant beside. -/
  | tagged (tag : String) (variants : List (String × List (String × Shape)))

/-! ### Fields -/

namespace Datum

variable {names : List String} {name tag : String} {fields : List (String × Datum)} {items : List Datum} {d v : Datum}

theorem hasFields_record : (record fields).hasFields names ↔ ∀ name ∈ names, (fields.map Prod.fst).count name = 1 := by
  simp [hasFields]

theorem hasFields_list : (list items).hasFields names ↔ items.length = names.length := by simp [hasFields]

theorem field?_record (h : (record fields).hasFields names) : (record fields).field? names name = fields.lookup name :=
  if_pos h

theorem hasFields_of_field? (h : d.field? names name = some v) : d.hasFields names := by
  unfold field? at h
  split at h
  · assumption
  · cases h

/-- What stands for a structure has a value for each of its fields. -/
theorem exists_field? (h : d.hasFields names) (hmem : name ∈ names) : ∃ v, d.field? names name = some v := by
  cases d with
  | record fields =>
    have hcount := hasFields_record.mp h name hmem
    obtain ⟨f, hf, rfl⟩ := List.mem_map.mp (List.count_pos_iff.mp (by omega : 0 < (fields.map Prod.fst).count name))
    rw [field?_record h]
    exact Option.isSome_iff_exists.mp (List.lookup_isSome_iff.mpr ⟨f, hf, beq_self_eq_true f.1⟩)
  | list items =>
    have hlt : names.idxOf name < items.length := hasFields_list.mp h ▸ List.idxOf_lt_length_iff.mpr hmem
    exact ⟨items[names.idxOf name], (if_pos h).trans (List.getElem?_eq_getElem hlt)⟩
  | _ => cases h

/-- A record has the fields that are written into it under different names. -/
theorem field?_written (hnodup : (fields.map Prod.fst).Nodup) (hmem : (name, v) ∈ fields) :
    (record fields).field? (fields.map Prod.fst) name = some v := by
  have hfields : (record fields).hasFields (fields.map Prod.fst) :=
    hasFields_record.mpr fun name hname => List.count_eq_one_of_mem hnodup hname
  rw [field?_record hfields]
  obtain ⟨before, after, rfl⟩ := List.append_of_mem hmem
  refine List.lookup_eq_some_iff.mpr ⟨before, after, rfl, fun f hf => bne_iff_ne.mpr ?_⟩
  rintro rfl
  rw [List.map_append, List.nodup_append] at hnodup
  exact hnodup.2.2 f.1 (List.mem_map_of_mem hf) f.1 List.mem_cons_self rfl

theorem Gives.hasFields {α : Type} {read? : Datum → Option α} {a : α} (h : d.Gives names name read? a) :
    d.hasFields names := by
  obtain ⟨v, hv, -⟩ := h
  exact hasFields_of_field? hv

theorem text?_eq_some_iff {t : String} : d.text? = some t ↔ d = text t := by
  cases d <;> simp [text?]

/-- What a reader of two fields asks of them. -/
theorem pair_eq_some_iff {α β γ : Type} {name' : String} {read? : Datum → Option α} {read'? : Datum → Option β}
    {make : α → β → γ} {c : γ} :
    (do
      let a ← read? (← d.field? names name)
      let b ← read'? (← d.field? names name')
      return make a b) = some c ↔
      ∃ a b, d.Gives names name read? a ∧ d.Gives names name' read'? b ∧ make a b = c := by
  simp only [Datum.Gives, Option.bind_eq_bind, Option.bind_eq_some_iff]
  constructor
  · rintro ⟨v, hv, a, ha, w, hw, b, hb, hmake⟩
    exact ⟨a, b, ⟨v, hv, ha⟩, ⟨w, hw, hb⟩, Option.some.inj hmake⟩
  · rintro ⟨a, b, ⟨v, hv, ha⟩, ⟨w, hw, hb⟩, hmake⟩
    exact ⟨v, hv, a, ha, w, hw, b, hb, congrArg some hmake⟩

/-- A tag is missing where a record has none or several of that name, where a list has no items, and elsewhere. -/
theorem tag?_record (h : (record fields).hasFields [tag] = false) : (record fields).tag? tag = none :=
  if_neg (by rw [h]; exact Bool.false_ne_true)

end Datum

namespace Shape

/-! ### Normal forms -/

mutual

/-- **The normal form of a value**: at every level, records of the known fields in their order stand for structures, and
what is unknown is left out. -/
def normal : Shape → Datum → Datum
  | .list item, .list items => .list (items.map (normal item))
  | .record known, d => .record (normalFields (known.map Prod.fst) known d)
  | .tagged tag variants, d => normalAs tag variants ((d.tag? tag).bind Datum.text?) d
  | _, d => d
  termination_by structural s => s

/-- The known fields of a structure with the fields `names`, each in its normal form. -/
def normalFields (names : List String) : List (String × Shape) → Datum → List (String × Datum)
  | [], _ => []
  | (name, s) :: known, d =>
    match d.field? names name with
    | some v => (name, normal s v) :: normalFields names known d
    | none => normalFields names known d
  termination_by structural known => known

/-- The variant of that label: its tag, and its fields. -/
def normalAs (tag : String) : List (String × List (String × Shape)) → Option String → Datum → Datum
  | [], _, d => d
  | (label, known) :: variants, label?, d =>
    if label? = some label then
      .record ((tag, .text label) :: normalFields (known.map Prod.fst) known (d.content tag))
    else normalAs tag variants label? d
  termination_by structural variants => variants

end

/-! ### Faults -/

/-- Whether the value is of a JSON type that the shape wants. -/
def fits : Shape → Datum → Bool
  | .text, .text _ | .word _, .whole _ | .word _, .fraction _ _ | .list _, .list _ | .record _, .record _
  | .record _, .list _ | .tagged _ _, .record _ | .tagged _ _, .list _ => true
  | _, _ => false

/-- The fields that a record must have; a tagged one first of all its tag. -/
def wanted : Shape → List String
  | .record known => known.map Prod.fst
  | .tagged tag _ => [tag]
  | _ => []

/-- **A fault**: what stands in the way of reading a value, there or at some level below. -/
inductive Fault : Shape → Datum → Prop
  | wrongType {s d} (h : s.fits d = false) : Fault s d
  | negative {bound n} (h : n < 0) : Fault (.word bound) (.whole n)
  | outOfRange {bound : Nat} {n : Int} (h : bound ≤ n) : Fault (.word bound) (.whole n)
  | fractional {bound digits places} : Fault (.word bound) (.fraction digits places)
  | item {s items v} (hmem : v ∈ items) (h : Fault s v) : Fault (.list s) (.list items)
  | missing {s fields name} (hmem : name ∈ s.wanted) (h : name ∉ fields.map Prod.fst) : Fault s (.record fields)
  | repeated {s fields name} (hmem : name ∈ s.wanted) (h : 1 < (fields.map Prod.fst).count name) :
    Fault s (.record fields)
  /-- A list with too few or too many items for the structure for which it stands. -/
  | length {known items} (h : items.length ≠ known.length) : Fault (.record known) (.list items)
  | field {known d name s v} (hmem : (name, s) ∈ known) (hv : d.field? (known.map Prod.fst) name = some v)
    (h : Fault s v) : Fault (.record known) d
  /-- A list without the item that names the variant. -/
  | untagged {tag variants} : Fault (.tagged tag variants) (.list [])
  | tag {tag variants d v} (hv : d.tag? tag = some v) (h : Fault .text v) : Fault (.tagged tag variants) d
  | unknownTag {tag variants d label} (hv : d.tag? tag = some (.text label)) (h : label ∉ variants.map Prod.fst) :
    Fault (.tagged tag variants) d
  | variant {tag variants d label known} (hv : d.tag? tag = some (.text label)) (hmem : (label, known) ∈ variants)
    (h : Fault (.record known) (d.content tag)) : Fault (.tagged tag variants) d

/-- A field of a structure is without fault. -/
def Sound (s : Shape) (names : List String) (name : String) (d : Datum) : Prop :=
  ∀ v, d.field? names name = some v → ¬ s.Fault v

variable {known : List (String × Shape)} {variants : List (String × List (String × Shape))}
variable {names : List String} {tag name label : String} {s : Shape} {d v : Datum} {fields : List (String × Datum)}

theorem normal_list (s : Shape) (items : List Datum) : (list s).normal (.list items) = .list (items.map s.normal) := rfl

theorem normal_record (known : List (String × Shape)) (d : Datum) :
    (record known).normal d = .record (normalFields (known.map Prod.fst) known d) := rfl

theorem normal_tagged (tag : String) (variants : List (String × List (String × Shape))) (d : Datum) :
    (tagged tag variants).normal d = normalAs tag variants ((d.tag? tag).bind Datum.text?) d := rfl

theorem normalFields_nil (names : List String) (d : Datum) : normalFields names [] d = [] := rfl

/-- The fields that are left are the known ones that are there. -/
theorem normalFields_eq (names : List String) (known : List (String × Shape)) (d : Datum) :
    normalFields names known d =
      known.filterMap fun f => (d.field? names f.1).map fun v => (f.1, f.2.normal v) := by
  induction known with
  | nil => rfl
  | cons f known ih =>
    rw [normalFields, List.filterMap_cons, ih]
    cases d.field? names f.1 <;> rfl

theorem fault_text_iff : Fault .text d ↔ text.fits d = false := by
  constructor
  · intro h
    cases h with
    | wrongType h => exact h
    | missing hmem _ => cases hmem
    | repeated hmem _ => cases hmem
  · exact .wrongType

theorem fault_list_iff {items : List Datum} : Fault (.list s) (.list items) ↔ ∃ v ∈ items, s.Fault v := by
  constructor
  · intro h
    cases h with
    | wrongType h => cases h
    | item hmem h => exact ⟨_, hmem, h⟩
  · rintro ⟨v, hmem, h⟩
    exact .item hmem h

theorem fits_of_hasFields (h : d.hasFields names) : (record known).fits d = true := by
  cases d with
  | record _ | list _ => rfl
  | _ => cases h

theorem fits_of_tag? (h : d.tag? tag = some v) : (tagged tag variants).fits d = true := by
  cases d with
  | record _ | list _ => rfl
  | _ => cases h

/-- A record in which not all wanted fields occur once lacks one or repeats one. -/
theorem fault_of_hasFields (h : (Datum.record fields).hasFields s.wanted = false) : Fault s (.record fields) := by
  rw [← Bool.not_eq_true, Datum.hasFields_record] at h
  push Not at h
  obtain ⟨name, hmem, hcount⟩ := h
  by_cases hthere : name ∈ fields.map Prod.fst
  · have hpos : 0 < (fields.map Prod.fst).count name := List.count_pos_iff.mpr hthere
    exact .repeated hmem (by omega)
  · exact .missing hmem hthere

theorem hasFields_of_missing (hmem : name ∈ names) (h : name ∉ fields.map Prod.fst) :
    (Datum.record fields).hasFields names = false := by
  rw [← Bool.not_eq_true, Datum.hasFields_record]
  intro hfields
  rw [← List.count_eq_zero, hfields name hmem] at h
  cases h

theorem hasFields_of_repeated (hmem : name ∈ names) (h : 1 < (fields.map Prod.fst).count name) :
    (Datum.record fields).hasFields names = false := by
  rw [← Bool.not_eq_true, Datum.hasFields_record]
  intro hfields
  rw [hfields name hmem] at h
  exact Nat.lt_irrefl 1 h

/-- **A structure without faults** has just its fields, and all of them without faults. -/
theorem not_fault_record_iff :
    ¬ Fault (.record known) d ↔ d.hasFields (known.map Prod.fst) ∧ ∀ f ∈ known, f.2.Sound (known.map Prod.fst) f.1 d := by
  constructor
  · intro hno
    refine ⟨?_, fun f hmem v hv h => hno (.field hmem hv h)⟩
    by_contra hfields
    rw [Bool.not_eq_true] at hfields
    cases d with
    | record fields => exact hno (fault_of_hasFields hfields)
    | list items => exact hno (.length fun h => by simp [Datum.hasFields, h] at hfields)
    | _ => exact hno (.wrongType rfl)
  · rintro ⟨hfields, hsound⟩ h
    cases h with
    | wrongType h => cases (fits_of_hasFields hfields).symm.trans h
    | missing hmem h => cases hfields.symm.trans (hasFields_of_missing hmem h)
    | repeated hmem h => cases hfields.symm.trans (hasFields_of_repeated hmem h)
    | length h => exact h (by simpa using Datum.hasFields_list.mp hfields)
    | field hmem hv h => exact hsound _ hmem _ hv h

theorem fault_of_untagged (h : d.tag? tag = none) : Fault (.tagged tag variants) d := by
  cases d with
  | record fields =>
    refine fault_of_hasFields (Bool.not_eq_true _ ▸ fun hfields => ?_)
    obtain ⟨v, hv⟩ := Datum.exists_field? hfields List.mem_cons_self
    cases hv.symm.trans h
  | list items =>
    cases List.head?_eq_none_iff.mp h
    exact .untagged
  | _ => exact .wrongType rfl

/-- **A tagged structure without faults** has a known tag, and beside it the fields of that variant without faults. -/
theorem not_fault_tagged_iff : ¬ Fault (.tagged tag variants) d ↔
    ∃ label, d.tag? tag = some (.text label) ∧ label ∈ variants.map Prod.fst ∧
      ∀ known, (label, known) ∈ variants → ¬ Fault (.record known) (d.content tag) := by
  constructor
  · intro hno
    cases htag : d.tag? tag with
    | none => exact absurd (fault_of_untagged htag) hno
    | some v =>
      cases v with
      | text label =>
        refine ⟨label, rfl, ?_, fun known hmem h => hno (.variant htag hmem h)⟩
        by_contra hunknown
        exact hno (.unknownTag htag hunknown)
      | _ => exact absurd (.tag htag (.wrongType rfl)) hno
  · rintro ⟨label, htag, hknown, hcontent⟩ h
    cases h with
    | wrongType h => cases (fits_of_tag? htag).symm.trans h
    | missing hmem h => cases htag.symm.trans (Datum.tag?_record (hasFields_of_missing hmem h))
    | repeated hmem h => cases htag.symm.trans (Datum.tag?_record (hasFields_of_repeated hmem h))
    | untagged => cases htag
    | tag hv h =>
      cases htag.symm.trans hv
      exact absurd (fault_text_iff.mp h) Bool.noConfusion
    | unknownTag hv h =>
      cases htag.symm.trans hv
      exact h hknown
    | variant hv hmem h =>
      cases htag.symm.trans hv
      exact hcontent _ hmem h

end Shape

/-! ### Writers and readers -/

/-- **A writer and a reader keep to a shape.**  What was written is read back; what was read is written in its normal form;
and nothing but a fault is in the reader's way. -/
structure Stores {α : Type} (s : Shape) (write : α → Datum) (read? : Datum → Option α) : Prop where
  read_write (a : α) : read? (write a) = some a
  write_read {d : Datum} {a : α} (h : read? d = some a) : write a = s.normal d
  readable_iff (d : Datum) : (∃ a, read? d = some a) ↔ ¬ s.Fault d

namespace Datum

theorem below?_whole {n bound : Nat} (h : n < bound) : (Datum.whole n).below? bound = some n := if_pos h

theorem below?_eq_some {d : Datum} {n bound : Nat} (h : d.below? bound = some n) : d = .whole n ∧ n < bound := by
  unfold below? at h
  split at h
  · split at h
    · next hlt => cases h; exact ⟨rfl, hlt⟩
    · cases h
  · cases h

theorem below?_eq_none_iff {d : Datum} {bound : Nat} : d.below? bound = none ↔ (Shape.word bound).Fault d := by
  constructor
  · intro h
    cases d with
    | whole n =>
      rcases Int.lt_or_le n 0 with hneg | hpos
      · exact .negative hneg
      · obtain ⟨m, rfl⟩ := Int.eq_ofNat_of_zero_le hpos
        refine .outOfRange (Int.ofNat_le.mpr (Nat.le_of_not_lt fun hlt => ?_))
        cases (below?_whole hlt).symm.trans h
    | fraction => exact .fractional
    | _ => exact .wrongType rfl
  · intro h
    refine Option.eq_none_iff_forall_ne_some.mpr fun n hn => ?_
    obtain ⟨rfl, hlt⟩ := below?_eq_some hn
    cases h with
    | wrongType h => cases h
    | negative h => omega
    | outOfRange h => omega

end Datum

/-! Readers of items. -/

section Items

variable {α : Type} {read? : Datum → Option α} {items : List Datum} {as : List α}

theorem mapM_eq_none_iff : items.mapM read? = none ↔ ∃ v ∈ items, read? v = none := by
  induction items with
  | nil => simp
  | cons v items ih =>
    rw [List.mapM_cons]
    cases hv : read? v with
    | none => simp [hv]
    | some a =>
      have hrest : (some a >>= fun a => items.mapM read? >>= fun as => pure (a :: as)) = none ↔
          items.mapM read? = none := by
        cases items.mapM read? <;> simp
      rw [hrest, ih]
      simp [hv]

theorem map_of_mapM {f : Datum → Datum} {write : α → Datum} (hwrite : ∀ v a, read? v = some a → write a = f v)
    (h : items.mapM read? = some as) : as.map write = items.map f := by
  induction items generalizing as with
  | nil => cases h; rfl
  | cons v items ih =>
    rw [List.mapM_cons] at h
    obtain ⟨a, ha, h⟩ := Option.bind_eq_some_iff.mp h
    obtain ⟨as', has, h⟩ := Option.bind_eq_some_iff.mp h
    cases h
    rw [List.map_cons, List.map_cons, hwrite v a ha, ih has]

end Items

namespace Stores

variable {α : Type} {write : α → Datum} {read? : Datum → Option α} {s : Shape} {known : List (String × Shape)}
variable {names : List String} {name : String} {d : Datum} {a : α}

theorem read_eq_none_iff (h : Stores s write read?) (d : Datum) : read? d = none ↔ s.Fault d := by
  rw [← not_iff_not, ← h.readable_iff]
  exact Option.ne_none_iff_exists'

/-! Fields. -/

theorem sound_of_gives (h : Stores s write read?) (hgives : d.Gives names name read? a) : s.Sound names name d := by
  obtain ⟨v, hv, hread⟩ := hgives
  intro w hw
  have hsame : w = v := Option.some.inj (hw.symm.trans hv)
  exact hsame ▸ (h.readable_iff v).mp ⟨a, hread⟩

theorem exists_gives (h : Stores s write read?) (hfields : d.hasFields names) (hmem : name ∈ names)
    (hsound : s.Sound names name d) : ∃ a, d.Gives names name read? a := by
  obtain ⟨v, hv⟩ := Datum.exists_field? hfields hmem
  obtain ⟨a, hread⟩ := (h.readable_iff v).mpr (hsound v hv)
  exact ⟨a, v, hv, hread⟩

theorem normalFields_cons (h : Stores s write read?) (hgives : d.Gives names name read? a) :
    Shape.normalFields names ((name, s) :: known) d = (name, write a) :: Shape.normalFields names known d := by
  obtain ⟨v, hv, hread⟩ := hgives
  simp only [Shape.normalFields_eq, List.filterMap_cons, hv, Option.map_some, h.write_read hread]

/-- A structure of two fields. -/
theorem record_pair {β γ : Type} {write' : β → Datum} {read'? : Datum → Option β} {s' : Shape} {name' : String}
    {writePair : γ → Datum} {readPair? : Datum → Option γ} (make : α → β → γ) (hmake : ∀ c, ∃ a b, make a b = c)
    (h : Stores s write read?) (h' : Stores s' write' read'?) (hname : name ≠ name')
    (hwrite : ∀ a b, writePair (make a b) = .record [(name, write a), (name', write' b)])
    (hread : ∀ d, readPair? d = do
      let a ← read? (← d.field? [name, name'] name)
      let b ← read'? (← d.field? [name, name'] name')
      return make a b) :
    Stores (.record [(name, s), (name', s')]) writePair readPair? where
  read_write c := by
    obtain ⟨a, b, rfl⟩ := hmake c
    have hnodup : ([(name, write a), (name', write' b)].map Prod.fst).Nodup := by simpa using hname
    rw [hwrite, hread, Datum.pair_eq_some_iff]
    exact ⟨a, b, ⟨_, Datum.field?_written hnodup (by simp), h.read_write a⟩,
      ⟨_, Datum.field?_written hnodup (by simp), h'.read_write b⟩, rfl⟩
  write_read {d c} hc := by
    rw [hread, Datum.pair_eq_some_iff] at hc
    obtain ⟨a, b, ha, hb, rfl⟩ := hc
    rw [hwrite, Shape.normal_record, List.map_cons, List.map_cons, List.map_nil, h.normalFields_cons ha,
      h'.normalFields_cons hb, Shape.normalFields_nil]
  readable_iff d := by
    simp only [Shape.not_fault_record_iff, List.forall_mem_cons, List.map_cons, List.map_nil, hread,
      Datum.pair_eq_some_iff]
    constructor
    · rintro ⟨_, a, b, ha, hb, -⟩
      exact ⟨ha.hasFields, h.sound_of_gives ha, h'.sound_of_gives hb, List.forall_mem_nil _⟩
    · rintro ⟨hfields, hsound, hsound', -⟩
      obtain ⟨a, ha⟩ := h.exists_gives hfields List.mem_cons_self hsound
      obtain ⟨b, hb⟩ := h'.exists_gives hfields (List.mem_cons_of_mem _ List.mem_cons_self) hsound'
      exact ⟨_, a, b, ha, hb, rfl⟩

/-! Texts and numbers. -/

theorem text : Stores .text Datum.text Datum.text? where
  read_write _ := rfl
  write_read {d a} h := by
    cases d with
    | text t => cases h; rfl
    | _ => cases h
  readable_iff d := by
    rw [Shape.fault_text_iff]
    cases d <;> simp [Datum.text?, Shape.fits]

theorem word {toNat : α → Nat} {ofNat : Nat → α} {bound : Nat} (hlt : ∀ a, toNat a < bound)
    (hof : ∀ a, ofNat (toNat a) = a) (hto : ∀ n < bound, toNat (ofNat n) = n) :
    Stores (.word bound) (fun a => .whole (toNat a)) fun d => (d.below? bound).map ofNat where
  read_write a := by
    rw [Datum.below?_whole (hlt a), Option.map_some, hof]
  write_read {d a} h := by
    obtain ⟨n, hn, rfl⟩ := Option.map_eq_some_iff.mp h
    obtain ⟨rfl, hlt⟩ := Datum.below?_eq_some hn
    rw [hto n hlt]
    rfl
  readable_iff d := by
    rw [← Option.ne_none_iff_exists', ne_eq, Option.map_eq_none_iff, Datum.below?_eq_none_iff]

/-! Lists. -/

theorem list (h : Stores s write read?) :
    Stores (.list s) (fun as => .list (as.map write)) fun d => d.list?.bind (·.mapM read?) where
  read_write as := by
    show (as.map write).mapM read? = some as
    induction as with
    | nil => rfl
    | cons a as ih => rw [List.map_cons, List.mapM_cons, h.read_write, ih]; rfl
  write_read {d as} hread := by
    obtain ⟨items, hitems, hread⟩ := Option.bind_eq_some_iff.mp hread
    cases d with
    | list items' =>
      cases hitems
      rw [Shape.normal_list, map_of_mapM (fun _ _ => h.write_read) hread]
    | _ => cases hitems
  readable_iff d := by
    rw [← Option.ne_none_iff_exists', not_iff_not]
    cases d with
    | list items =>
      rw [Shape.fault_list_iff]
      show items.mapM read? = none ↔ _
      simp only [mapM_eq_none_iff, h.read_eq_none_iff]
    | _ => exact iff_of_true rfl (.wrongType rfl)

end Stores

end PhraseTree
