import RecordCodec.Proofs.Observation
import RecordCodec.Proofs.Registry.Coverage
import RecordCodec.Registry.Lookup

/-!
# What a look-up comes to

A look-up asks three questions in this order: whether the family owns the code, whether a blank
object can be made, and whether the payload decodes. The first that is answered with no decides the
error. The order is that of the definition; what is not in the definition is that the first question
is only about the range. A code in the range might have no type, and the look-up would give the same
error for it. In a collection that was built this does not happen, whatever was done to the
catalogue before, so a code in the range is never refused as one outside of it.

Where the object is announced in a trace, its fields are dumped, and the dump visits the record once
more. Data does not mind, but a field that watches does.

## Main results

* `Collection.make_of_not_owned`, `Collection.make_ne_outside` — the answer to the first question.
* `Collection.fill_eq_corrupt_iff`, `Collection.fill_of_ok` — the answer to the last one.
* `Collection.make_outcome` — the look-up in a collection that was built, case by case.
-/

namespace RecordCodec

namespace Collection

variable {c : Collection} {traced : Bool} {family : TypeTag} {code : UInt32} {payload : Bytes}
  {options : Mask} {r : Registration} {blank : Record}

/-! ### The code -/

/-- Where the family has no type for a code, the code is refused, and nothing but the names of
collection and family plays a role. -/
theorem make_of_no_entry (h : c.entry? family code = none) :
    c.make traced family code payload options =
      ⟨.error (.typeCode code family.typeName),
        [.outOfRange c.catalogue.name code family.typeName]⟩ := by
  rw [make, h]

/-- A code that the family does not own is refused. -/
theorem make_of_not_owned (h : ¬(c.catalogue.rangeOf family).any (·.contains code)) :
    c.make traced family code payload options =
      ⟨.error (.typeCode code family.typeName),
        [.outOfRange c.catalogue.name code family.typeName]⟩ :=
  make_of_no_entry (if_neg h)

section

variable (howned : (c.catalogue.rangeOf family).any (·.contains code))
  (hfind : c.catalogue.find? code = some r)

include howned hfind

/-- The type of a code has no blank object to offer. -/
theorem make_of_unbuildable {e : Error} (h : r.blank = .error e) :
    c.make traced family code payload options =
      ⟨.error e, [.unbuildable c.catalogue.name code r.name e]⟩ := by
  have hentry : c.entry? family code = some r := (if_pos howned).trans hfind
  simp only [make, hentry, h]

/-- A blank object is made, and filled. -/
theorem make_of_blank (h : r.blank = .ok blank) :
    c.make traced family code payload options = c.fill traced r blank payload options := by
  have hentry : c.entry? family code = some r := (if_pos howned).trans hfind
  simp only [make, hentry, h]

end

/-! ### The payload -/

theorem record_announce (c : Collection) (r : Registration) (record : Record) :
    (c.announce r record).1 = (record.dump Options.names).record := by
  rw [announce]
  cases (record.dump Options.names).result <;> rfl

theorem fill_of_error {e : Error}
    (h : (blank.decode payload c.catalogue.context options).result = .error e) :
    (c.fill traced r blank payload options).result = .error (.corruptPayload r.code e) := by
  rw [fill]
  simp only [h]

/-- The object of a payload that decodes. In a trace its fields are dumped. -/
theorem fill_of_ok (h : (blank.decode payload c.catalogue.context options).result = .ok ()) :
    let decoded := (blank.decode payload c.catalogue.context options).record
    (c.fill traced r blank payload options).result =
      .ok ⟨r.tag, if traced then (decoded.dump Options.names).record else decoded⟩ := by
  rw [fill]
  cases traced with
  | false => simp only [h, Bool.false_eq_true, if_false]
  | true => simp only [h, if_true, record_announce]

theorem fill_eq_corrupt_iff {source : Error} :
    (c.fill traced r blank payload options).result = .error (.corruptPayload r.code source) ↔
      (blank.decode payload c.catalogue.context options).result = .error source := by
  cases h : (blank.decode payload c.catalogue.context options).result with
  | error e =>
    rw [fill_of_error h, Except.error.injEq, Error.corruptPayload.injEq, Except.error.injEq]
    exact and_iff_right rfl
  | ok u =>
    rw [fill_of_ok h]
    exact iff_of_false nofun nofun

/-- An object that was plain to begin with is what was decoded, traced or not. -/
theorem fill_of_plain (hplain : traced = false ∨ blank.isPlain)
    (h : (blank.decode payload c.catalogue.context options).result = .ok ()) :
    (c.fill traced r blank payload options).result =
      .ok ⟨r.tag, (blank.decode payload c.catalogue.context options).record⟩ := by
  rw [fill_of_ok h]
  rcases hplain with rfl | hplain
  · rfl
  · have hdata : (blank.decode payload c.catalogue.context options).record.isData :=
      isData_run hplain _
    rw [Record.record_dump hdata, ite_self]

/-- A code that has a type is not refused as one outside of the range, even where the error of its
blank object is worded like that. -/
theorem make_ne_outside (howned : (c.catalogue.rangeOf family).any (·.contains code))
    (hfind : c.catalogue.find? code = some r) :
    c.make traced family code payload options ≠
      ⟨.error (.typeCode code family.typeName),
        [.outOfRange c.catalogue.name code family.typeName]⟩ := by
  intro h
  cases hblank : r.blank with
  | error e =>
    rw [make_of_unbuildable howned hfind hblank] at h
    exact absurd (congrArg Lookup.log h) nofun
  | ok blank =>
    rw [make_of_blank howned hfind hblank] at h
    have hresult := congrArg Lookup.result h
    cases hdecoded : (blank.decode payload c.catalogue.context options).result with
    | error e =>
      rw [fill_of_error hdecoded] at hresult
      cases hresult
    | ok u =>
      rw [fill_of_ok hdecoded] at hresult
      cases hresult

/-! ### Objects of a given type -/

/-- An object of a given type is the object, if it is of the type. -/
theorem result_makeTyped (c : Collection) (traced : Bool) (type : TypeTag) (code : UInt32)
    (payload : Bytes) (options : Mask) :
    (c.makeTyped traced type code payload options).result =
      (c.make traced type code payload options).result.bind fun object =>
        if object.tag = type then .ok object.record else .error (.typeCode code type.typeName) := by
  rw [makeTyped]
  cases (c.make traced type code payload options).result with
  | error e => rfl
  | ok object =>
    dsimp only [Except.bind]
    by_cases h : object.tag = type
    · rw [if_pos h, if_pos h]
    · rw [if_neg h, if_neg h]

/-! ### Collections that were built -/

/-- **What a look-up comes to**, in a collection that was built from any changes. A code outside of
the family's range is refused, without a blank object being made, and a code in the range is not. It
has a type. The error of its blank object is handed on; a payload that does not decode is reported
with the reason; and otherwise the object is the record that was decoded, which the announcement in
a trace visits once more. -/
theorem make_outcome {name : String} {changes : List Catalogue.Change}
    (hbuild : ((Catalogue.empty name).changeAll changes).2.1.build = .ok c) (traced : Bool)
    (family : TypeTag) (code : UInt32) (payload : Bytes) (options : Mask) :
    let owned := (c.catalogue.rangeOf family).any (·.contains code)
    let made := c.make traced family code payload options
    (made = ⟨.error (.typeCode code family.typeName),
        [.outOfRange c.catalogue.name code family.typeName]⟩ ↔ ¬owned) ∧
      (owned → ∃ r ∈ c.catalogue.types, r.code = code ∧
        (∀ e, r.blank = .error e → made.result = .error e) ∧
        ∀ blank, r.blank = .ok blank →
          let decoded := blank.decode payload c.catalogue.context options
          (∀ source, made.result = .error (.corruptPayload code source) ↔
            decoded.result = .error source) ∧
          (decoded.result = .ok () → made.result =
            .ok ⟨r.tag, if traced then (decoded.record.dump Options.names).record
              else decoded.record⟩) ∧
          (traced = false ∨ blank.isPlain → decoded.result = .ok () →
            made.result = .ok ⟨r.tag, decoded.record⟩)) := by
  intro owned made
  have hcoded : c.catalogue.Coded := by
    rw [Catalogue.build_eq_ok hbuild]
    exact Catalogue.coded_changeAll (Catalogue.coded_empty name) changes
  refine ⟨⟨fun hmade howned => ?_, fun h => make_of_not_owned h⟩, fun howned => ?_⟩
  · obtain ⟨r, hfind⟩ := c.find?_isSome hcoded howned
    exact make_ne_outside howned hfind hmade
  · obtain ⟨r, hfind⟩ := c.find?_isSome hcoded howned
    obtain ⟨hmem, rfl⟩ := Catalogue.mem_of_find? hfind
    refine ⟨r, hmem, rfl, fun e he => ?_, fun blank hblank => ?_⟩
    · exact congrArg Lookup.result (make_of_unbuildable howned hfind he)
    · have hmade : made = c.fill traced r blank payload options :=
        make_of_blank howned hfind hblank
      rw [hmade]
      exact ⟨fun _ => fill_eq_corrupt_iff, fill_of_ok, fill_of_plain⟩

/-- A type with one number, looked up with the byte of that number, in a trace. -/
theorem make_outcome_number :
    ∃ c, ((Catalogue.empty "numbers").changeAll
        [.register ⟨1, "Number", ⟨"Number"⟩, .ok (.strict [.leaf "n" .u8 0])⟩]).2.1.build =
          .ok c ∧
      (c.make true ⟨"Number"⟩ 1 [7] 0).result =
        .ok ⟨⟨"Number"⟩, .strict [.leaf "n" .u8 7]⟩ := by
  have hbuild : ((Catalogue.empty "numbers").changeAll
      [.register ⟨1, "Number", ⟨"Number"⟩, .ok (.strict [.leaf "n" .u8 0])⟩]).2.1.build =
        .ok ⟨⟨"numbers", .unknown,
          [⟨1, "Number", ⟨"Number"⟩, .ok (.strict [.leaf "n" .u8 0])⟩], []⟩, rfl⟩ := rfl
  refine ⟨_, hbuild, ?_⟩
  obtain ⟨r, hr, -, -, hblank⟩ := (make_outcome hbuild true ⟨"Number"⟩ 1 [7] 0).2 rfl
  obtain rfl := List.mem_singleton.mp hr
  exact (hblank _ rfl).2.2 (.inr rfl) rfl

/-- The object is not always the record that was decoded. A field that watches has seen the decoder,
and then the dump of the announcement. -/
theorem make_watching_announced :
    ∃ c, ((Catalogue.empty "probes").changeAll
        [.register ⟨1, "Probe", ⟨"Probe"⟩, .ok (.strict [.watching []])⟩]).2.1.build = .ok c ∧
      let decoded := (Record.strict [.watching []]).decode [] c.catalogue.context 0
      decoded.result = .ok () ∧
        (c.make true ⟨"Probe"⟩ 1 [] 0).result ≠ .ok ⟨⟨"Probe"⟩, decoded.record⟩ := by
  refine ⟨⟨⟨"probes", .unknown, [⟨1, "Probe", ⟨"Probe"⟩, .ok (.strict [.watching []])⟩], []⟩,
    rfl⟩, rfl, rfl, fun h => ?_⟩
  have hrecord : Record.strict [.watching [⟨.decode, .unknown, 0, some 0, false⟩,
      ⟨.inspect, .storage, Options.names, none, false⟩]] =
      .strict [.watching [⟨.decode, .unknown, 0, some 0, false⟩]] :=
    congrArg Object.record (Except.ok.inj h)
  simp at hrecord

end Collection

end RecordCodec
