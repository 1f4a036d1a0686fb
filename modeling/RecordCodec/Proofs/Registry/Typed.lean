import RecordCodec.Proofs.Registry.Lookup
import RecordCodec.Proofs.Registry.Ranges

/-!
# Objects of a given type

Whoever asks for an object of one type looks its code up with the type in the place of a family.
What comes back is checked in the end, since the look-up may have gone through a range that has
nothing to do with the type: the tag of a type that is not registered can be that of a family. For a
type that is registered the check does not fail. A tag has one range, so the range of the type is
that of its code, and the code has one type, so it was this type that made the object.

## Main definitions

* `Collection.Makes` — a record is the blank object of a type, filled with a payload.

## Main results

* `Collection.make_eq_ok_iff` — what has been made, and by which type.
* `Collection.makeTyped_type` — objects of a type that is registered.
* `Collection.makeTyped_sound` — objects of a given type are of the type.
-/

namespace RecordCodec

namespace Collection

variable {c : Collection} {traced : Bool} {family type : TypeTag} {code : UInt32} {payload : Bytes}
  {options : Mask} {r : Registration} {blank record : Record} {object : Object}

/-- The record is the blank object of a type, filled with a payload. In a trace it has been dumped
after that. -/
def Makes (c : Collection) (traced : Bool) (payload : Bytes) (options : Mask) (r : Registration)
    (record : Record) : Prop :=
  ∃ blank, r.blank = .ok blank ∧
    let decoded := blank.decode payload c.catalogue.context options
    decoded.result = .ok () ∧
      record = if traced then (decoded.record.dump Options.names).record else decoded.record

/-- The error is the reason why a type has no blank object, or why the payload cannot be decoded
into it. -/
inductive Fails (c : Collection) (payload : Bytes) (options : Mask) (r : Registration) :
    Error → Prop
  | unbuildable {e : Error} : r.blank = .error e → Fails c payload options r e
  | corrupt {blank : Record} {source : Error} : r.blank = .ok blank →
    (blank.decode payload c.catalogue.context options).result = .error source →
    Fails c payload options r (.corruptPayload r.code source)

/-- What is made of a blank object that is plain, or outside of a trace, is what was decoded. -/
theorem Makes.eq_decoded (h : c.Makes traced payload options r record)
    (hblank : r.blank = .ok blank) (hplain : traced = false ∨ blank.isPlain) :
    record = (blank.decode payload c.catalogue.context options).record := by
  obtain ⟨blank', hblank', hdecodes, rfl⟩ := h
  obtain rfl := Except.ok.inj (hblank'.symm.trans hblank)
  have hfilled := fill_of_plain (r := r) hplain hdecodes
  rw [fill_of_ok hdecodes] at hfilled
  exact congrArg Object.record (Except.ok.inj hfilled)

/-! ### What has been made -/

theorem fill_eq_ok_iff (hblank : r.blank = .ok blank) :
    (c.fill traced r blank payload options).result = .ok object ↔
      object.tag = r.tag ∧ c.Makes traced payload options r object.record := by
  constructor
  · intro h
    cases hdecoded : (blank.decode payload c.catalogue.context options).result with
    | error e =>
      rw [fill_of_error hdecoded] at h
      cases h
    | ok u =>
      rw [fill_of_ok hdecoded] at h
      obtain rfl := Except.ok.inj h
      exact ⟨rfl, blank, hblank, hdecoded, rfl⟩
  · rintro ⟨htag, blank', hblank', hdecodes, hrecord⟩
    obtain ⟨tag, record⟩ := object
    obtain rfl : tag = r.tag := htag
    obtain rfl := Except.ok.inj (hblank'.symm.trans hblank)
    rw [fill_of_ok hdecodes, ← hrecord]

theorem fill_eq_error_iff (hblank : r.blank = .ok blank) {e : Error} :
    (c.fill traced r blank payload options).result = .error e ↔ c.Fails payload options r e := by
  constructor
  · intro h
    cases hdecoded : (blank.decode payload c.catalogue.context options).result with
    | error source =>
      rw [fill_of_error hdecoded] at h
      obtain rfl := Except.error.inj h
      exact .corrupt hblank hdecoded
    | ok u =>
      rw [fill_of_ok hdecoded] at h
      cases h
  · rintro (herror | ⟨hblank', hdecoded⟩)
    · cases herror.symm.trans hblank
    · obtain rfl := Except.ok.inj (hblank'.symm.trans hblank)
      exact fill_of_error hdecoded

section

variable (howned : (c.catalogue.rangeOf family).any (·.contains code))
  (hfind : c.catalogue.find? code = some r)

include howned hfind

/-- **What is made** in a range that has the code is an object of the code's type. -/
theorem make_eq_ok_iff :
    (c.make traced family code payload options).result = .ok object ↔
      object.tag = r.tag ∧ c.Makes traced payload options r object.record := by
  cases hblank : r.blank with
  | error e =>
    rw [make_of_unbuildable howned hfind hblank]
    refine iff_of_false nofun ?_
    rintro ⟨-, blank, hok, -⟩
    cases hok.symm.trans hblank
  | ok blank =>
    rw [make_of_blank howned hfind hblank]
    exact fill_eq_ok_iff hblank

theorem make_eq_error_iff {e : Error} :
    (c.make traced family code payload options).result = .error e ↔
      c.Fails payload options r e := by
  cases hblank : r.blank with
  | error source =>
    rw [make_of_unbuildable howned hfind hblank, Except.error.injEq]
    constructor
    · rintro rfl
      exact .unbuildable hblank
    · rintro (herror | ⟨hok, -⟩)
      · exact Except.error.inj (hblank.symm.trans herror)
      · cases hok.symm.trans hblank
  | ok blank =>
    rw [make_of_blank howned hfind hblank]
    exact fill_eq_error_iff hblank

end

/-- Whatever is made is made by a type that is registered for the code. -/
theorem exists_makes (h : (c.make traced family code payload options).result = .ok object) :
    ∃ r ∈ c.catalogue.types, r.code = code ∧ object.tag = r.tag ∧
      c.Makes traced payload options r object.record := by
  by_cases howned : (c.catalogue.rangeOf family).any (·.contains code)
  · cases hfind : c.catalogue.find? code with
    | none =>
      have hentry : c.entry? family code = none := (if_pos howned).trans hfind
      rw [make_of_no_entry hentry] at h
      cases h
    | some r =>
      obtain ⟨hmem, hcode⟩ := Catalogue.mem_of_find? hfind
      exact ⟨r, hmem, hcode, (make_eq_ok_iff howned hfind).mp h⟩
  · rw [make_of_not_owned howned] at h
    cases h

/-! ### Asking for a type -/

/-- An object of a type that is asked for has been made, and is of the type. -/
theorem makeTyped_eq_ok_iff :
    (c.makeTyped traced type code payload options).result = .ok record ↔
      (c.make traced type code payload options).result = .ok ⟨type, record⟩ := by
  rw [result_makeTyped]
  cases (c.make traced type code payload options).result with
  | error e => exact iff_of_false nofun nofun
  | ok object =>
    obtain ⟨tag, made⟩ := object
    by_cases h : tag = type
    · simp only [Except.bind, h, if_true, Except.ok.injEq, Object.mk.injEq, true_and]
    · simp only [Except.bind, h, if_false, Except.ok.injEq, Object.mk.injEq, false_and,
        reduceCtorEq]

/-- **A type that is registered** makes all that is made of its code, so nothing of it is turned
away. -/
theorem makeTyped_type (hc : c.catalogue.Sound) (hr : r ∈ c.catalogue.types) (traced : Bool)
    (payload : Bytes) (options : Mask) :
    let made := (c.make traced r.tag r.code payload options).result
    let typed := (c.makeTyped traced r.tag r.code payload options).result
    (∀ object, made = .ok object → object.tag = r.tag ∧ typed = .ok object.record) ∧
    (∀ record, typed = .ok record ↔ c.Makes traced payload options r record) ∧
    ∀ e, typed = .error e ↔ c.Fails payload options r e := by
  intro made typed
  have hok : ∀ object, made = .ok object ↔
      object.tag = r.tag ∧ c.Makes traced payload options r object.record :=
    fun _ => make_eq_ok_iff (hc.owned_type hr) (hc.find?_type hr)
  have herror : ∀ e, made = .error e ↔ c.Fails payload options r e :=
    fun _ => make_eq_error_iff (hc.owned_type hr) (hc.find?_type hr)
  have htyped : typed = made.map Object.record := by
    refine (result_makeTyped c traced r.tag r.code payload options).trans ?_
    change made.bind _ = _
    cases hmade : made with
    | error e => rfl
    | ok object => exact if_pos ((hok object).mp hmade).1
  refine ⟨fun object hmade => ⟨((hok object).mp hmade).1, ?_⟩, fun record => ?_, fun e => ?_⟩
  · rw [htyped, hmade]
    rfl
  · exact makeTyped_eq_ok_iff.trans ((hok ⟨r.tag, record⟩).trans (and_iff_right rfl))
  · rw [← herror, htyped]
    cases hmade : made with
    | error e' => simp only [Except.map, Except.error.injEq]
    | ok object => exact iff_of_false nofun nofun

/-- **Objects of a given type are of the type**, in a collection that was built from any changes,
some of which may have been refused.

An object comes back only if the type is registered under the code, and then it is the type's blank
object, filled with the payload. For such a type and its code the object that the look-up has made
is never turned away: there is an object just if one is made, and otherwise the error is that of the
blank object or that of the payload. For a type that is not registered, be it the tag of a family or
not, there is no object. Whatever else the look-up has made is turned away. -/
theorem makeTyped_sound {name : String} {changes : List Catalogue.Change}
    (hbuild : ((Catalogue.empty name).changeAll changes).2.1.build = .ok c) (traced : Bool)
    (type : TypeTag) (code : UInt32) (payload : Bytes) (options : Mask) :
    let made := (c.make traced type code payload options).result
    let typed := (c.makeTyped traced type code payload options).result
    (∀ record, typed = .ok record → ∃ r ∈ c.catalogue.types, r.tag = type ∧ r.code = code ∧
      c.Makes traced payload options r record ∧
      ∀ blank, r.blank = .ok blank → traced = false ∨ blank.isPlain →
        record = (blank.decode payload c.catalogue.context options).record) ∧
    (∀ r ∈ c.catalogue.types, r.tag = type → r.code = code →
      (∀ object, made = .ok object → object.tag = type ∧ typed = .ok object.record) ∧
      (∀ record, typed = .ok record ↔ c.Makes traced payload options r record) ∧
      ∀ e, typed = .error e ↔ c.Fails payload options r e) ∧
    ((∀ r ∈ c.catalogue.types, r.tag ≠ type) →
      (∀ record, typed ≠ .ok record) ∧
      ∀ object, made = .ok object → typed = .error (.typeCode code type.typeName)) := by
  intro made typed
  have hc : c.catalogue.Sound := by
    rw [Catalogue.build_eq_ok hbuild]
    exact Catalogue.sound_changeAll (Catalogue.sound_empty name) changes
  refine ⟨fun record htyped => ?_, fun r hr htag hcode => ?_, fun hnone => ?_⟩
  · obtain ⟨r, hr, hcode, htag, hmakes⟩ := exists_makes (makeTyped_eq_ok_iff.mp htyped)
    exact ⟨r, hr, htag.symm, hcode, hmakes, fun blank hblank => hmakes.eq_decoded hblank⟩
  · subst htag hcode
    exact makeTyped_type hc hr traced payload options
  · have hother : ∀ object, made = .ok object → object.tag ≠ type := by
      intro object hmade htag
      obtain ⟨r, hr, -, hr', -⟩ := exists_makes hmade
      exact hnone r hr (hr'.symm.trans htag)
    refine ⟨fun record htyped => ?_, fun object hmade => ?_⟩
    · exact hother ⟨type, record⟩ (makeTyped_eq_ok_iff.mp htyped) rfl
    · have hchecked := result_makeTyped c traced type code payload options
      rw [show (c.make traced type code payload options).result = .ok object from hmade] at hchecked
      exact hchecked.trans (if_neg (hother object hmade))

/-- A number that is looked up through the tag of a shape. The tag is that of a family, which has
the code of numbers; the payload decodes, and is refused. -/
theorem makeTyped_sound_number :
    ∃ c, ((Catalogue.empty "numbers").changeAll
        [.register ⟨7, "Number", ⟨"Number"⟩, .ok (.strict [.leaf "n" .u8 0])⟩,
          .declare ⟨⟨"Shape"⟩, ⟨7, 7⟩⟩]).2.1.build = .ok c ∧
      (c.makeTyped false ⟨"Number"⟩ 7 [5] 0).result = .ok (.strict [.leaf "n" .u8 5]) ∧
      (c.make false ⟨"Shape"⟩ 7 [5] 0).result = .ok ⟨⟨"Number"⟩, .strict [.leaf "n" .u8 5]⟩ ∧
      (c.makeTyped false ⟨"Shape"⟩ 7 [5] 0).result = .error (.typeCode 7 "Shape") := by
  let c : Collection := ⟨⟨"numbers", .unknown,
    [⟨7, "Number", ⟨"Number"⟩, .ok (.strict [.leaf "n" .u8 0])⟩], [⟨⟨"Shape"⟩, ⟨7, 7⟩⟩]⟩, rfl⟩
  have hbuild : ((Catalogue.empty "numbers").changeAll
      [.register ⟨7, "Number", ⟨"Number"⟩, .ok (.strict [.leaf "n" .u8 0])⟩,
        .declare ⟨⟨"Shape"⟩, ⟨7, 7⟩⟩]).2.1.build = .ok c := rfl
  have howned : (c.catalogue.rangeOf ⟨"Shape"⟩).any (·.contains 7) := by decide
  have hdecodes : ((Record.strict [.leaf "n" .u8 0]).decode [5] .unknown 0).result = .ok () := rfl
  have hrecord : ((Record.strict [.leaf "n" .u8 0]).decode [5] .unknown 0).record =
      .strict [.leaf "n" .u8 5] := rfl
  have hmade : (c.make false ⟨"Shape"⟩ 7 [5] 0).result =
      .ok ⟨⟨"Number"⟩, .strict [.leaf "n" .u8 5]⟩ :=
    (make_eq_ok_iff howned rfl).mpr ⟨rfl, _, rfl, hdecodes, hrecord.symm⟩
  refine ⟨c, hbuild, ?_, hmade, ?_⟩
  · obtain ⟨-, hnumber, -⟩ := makeTyped_sound hbuild false ⟨"Number"⟩ 7 [5] 0
    obtain ⟨-, hmakes, -⟩ := hnumber _ (List.mem_singleton_self _) rfl rfl
    exact (hmakes _).mpr ⟨_, rfl, hdecodes, hrecord.symm⟩
  · obtain ⟨-, -, hshape⟩ := makeTyped_sound hbuild false ⟨"Shape"⟩ 7 [5] 0
    have hnone : ∀ r ∈ c.catalogue.types, r.tag ≠ ⟨"Shape"⟩ := by
      intro r hr
      rw [List.mem_singleton.mp hr]
      decide
    exact (hshape hnone).2 _ hmade

end Collection

end RecordCodec
