import RecordCodec.Proofs.Binary.Integrity
import RecordCodec.Proofs.Binary.Size
import RecordCodec.Proofs.Binary.Transparency
import RecordCodec.Proofs.Contents
import RecordCodec.Proofs.Registry.Lookup
import RecordCodec.Proofs.Registry.Ranges

/-!
# Objects come back from their payloads

A record that is encoded for a collection is made again from its code and its payload. It does not
matter through which tag the code is looked up, its own or that of a family with the code in its
range, since all of them lead to the one type that has the code. In a catalogue whose families
overlap there are many such tags. The object is of that type, whatever tag was used.

The object has the contents of the record, and so its payload is the same again. A payload that ends
in a trailer and was changed in one byte is refused, and through any tag for the same reason.

## Main results

* `Decoder.decode_sealed`, `Decoder.decode_set` — a payload as it was made, and one byte off.
* `Collection.make_of_decoded`, `Collection.make_of_corrupt` — look-ups through any tag that leads
  to the type.
* `Collection.makes_encoded` — the round trip through a collection.
-/

namespace RecordCodec

/-! ### Payloads -/

theorem differsWithin_set (bs : Bytes) (i : Nat) (b : UInt8) :
    DiffersWithin i 1 bs (bs.set i b) where
  length := List.length_set
  outside j hj := List.getElem?_set_ne (by omega)

namespace Decoder

variable {context : Context} {options : Mask} {body cs : Bytes}

/-- A payload is decoded into any record of the form. -/
theorem decode_sealed (context : Context) (options : Mask) {r blank : Record}
    (hr : r.isRecoverable) (hform : r.alike blank) :
    let decoded := blank.decode (sealed options r.layout) context options
    decoded.result = .ok () ∧ decoded.record = r.deliver blank := by
  obtain ⟨t, hrun⟩ := run_sealed context options hr hform
  have hdecoded : blank.decode (sealed options r.layout) context options = _ :=
    congrArg (Report.ofRun · _) hrun
  rw [hdecoded]
  exact ⟨rfl, rfl⟩

/-- Sealed bytes that were changed, in four bytes of the body or in the trailer, are not sealed. -/
theorem unsealed_of_differsWithin {start width : Nat}
    (h : DiffersWithin start width (body ++ bigEndian 4 (crc32 body).toNat) cs)
    (hne : cs ≠ body ++ bigEndian 4 (crc32 body).toNat)
    (hplace : width ≤ 4 ∧ start + width ≤ body.length ∨ body.length ≤ start) (body' : Bytes) :
    cs ≠ body' ++ bigEndian 4 (crc32 body').toNat := by
  rintro rfl
  have hlength : body'.length = body.length := by
    have hall := h.length
    rw [List.length_append, List.length_append, length_bigEndian, length_bigEndian] at hall
    exact Nat.add_right_cancel hall
  exact crc32_ne_of_differsWithin h hlength hne hplace (ofBigEndian_word _)

/-- **One byte off.** Sealed bytes of which one was changed are refused for their checksum. -/
theorem decode_set (context : Context) (hchecksum : meets options Options.checksum)
    (body : Bytes) {i : Nat} (hi : i < (sealed options body).length) {b : UInt8}
    (hb : b ≠ (sealed options body)[i]) :
    ∃ stored computed, stored ≠ computed ∧ ∀ blank : Record,
      (blank.decode ((sealed options body).set i b) context options).result =
        .error (.checksum stored computed) := by
  have hsealed : sealed options body = body ++ bigEndian 4 (crc32 body).toNat := by
    rw [sealed, trailer_of_meets hchecksum]
  have hwithin := differsWithin_set (sealed options body) i b
  have hne : (sealed options body).set i b ≠ sealed options body := by
    intro h
    refine hb ?_
    rw [← List.getElem_set_self (a := b) (by rwa [List.length_set])]
    simp only [h]
  have hlong : ¬((sealed options body).set i b).length < wordSize := by
    rw [List.length_set, hsealed, List.length_append, length_bigEndian, Nat.not_lt]
    exact Nat.le_add_left _ _
  rw [hsealed] at hwithin hne
  have hunsealed := unsealed_of_differsWithin hwithin hne (by omega)
  rw [← hsealed] at hunsealed
  refine ⟨_, _, stored_ne_computed hunsealed (Nat.not_lt.mp hlong), fun blank => ?_⟩
  obtain ⟨log, hrun⟩ := run_fresh context hchecksum hunsealed blank
  rw [refusal, if_neg hlong] at hrun
  simp only [Record.decode, Report.ofRun, hrun]
  rfl

end Decoder

/-! ### Look-ups -/

namespace Catalogue

variable {c : Catalogue} {reg : Registration}

/-- The tags through which the code of a type can be looked up. -/
inductive Leads (c : Catalogue) (reg : Registration) : TypeTag → Prop
  | self : Leads c reg reg.tag
  | family {f : Family} : f ∈ c.families → f.range.contains reg.code → Leads c reg f.tag

theorem Leads.owned {tag : TypeTag} (h : c.Leads reg tag) (hc : c.Sound) (hreg : reg ∈ c.types) :
    (c.rangeOf tag).any (·.contains reg.code) := by
  cases h with
  | self => exact hc.owned_type hreg
  | family hf hcode =>
    rw [hc.rangeOf_family hf]
    exact hcode

end Catalogue

namespace Collection

variable {c : Collection} {traced : Bool} {payload : Bytes} {options : Mask} {reg : Registration}
  {blank : Record} {tag : TypeTag}

theorem makeTyped_of_ok {record : Record}
    (h : (c.make traced tag reg.code payload options).result = .ok ⟨tag, record⟩) :
    (c.makeTyped traced tag reg.code payload options).result = .ok record := by
  simp only [makeTyped, h, if_true]

theorem makeTyped_of_error {e : Error}
    (h : (c.make traced tag reg.code payload options).result = .error e) :
    (c.makeTyped traced tag reg.code payload options).result = .error e := by
  simp only [makeTyped, h]

section

variable (hc : c.catalogue.Sound) (hreg : reg ∈ c.catalogue.types) (hblank : reg.blank = .ok blank)
  (hlead : c.catalogue.Leads reg tag)

include hc hreg hblank hlead

/-- The object is filled by the one type of the code. -/
theorem make_of_leads :
    c.make traced tag reg.code payload options = c.fill traced reg blank payload options :=
  make_of_blank (hlead.owned hc hreg) (hc.find?_type hreg) hblank

/-- **An object is made** from what its payload decodes to. -/
theorem make_of_decoded (hplain : blank.isPlain)
    (h : (blank.decode payload c.catalogue.context options).result = .ok ()) :
    (c.make traced tag reg.code payload options).result =
      .ok ⟨reg.tag, (blank.decode payload c.catalogue.context options).record⟩ := by
  rw [make_of_leads hc hreg hblank hlead]
  exact fill_of_plain (.inr hplain) h

/-- **A payload that does not decode** is refused with the reason. -/
theorem make_of_corrupt {e : Error}
    (h : (blank.decode payload c.catalogue.context options).result = .error e) :
    (c.make traced tag reg.code payload options).result = .error (.corruptPayload reg.code e) := by
  rw [make_of_leads hc hreg hblank hlead]
  exact fill_of_error h

end

/-! ### There and back -/

/-- **The round trip through a collection** that was built from any changes, some of which may have
been refused. A record that can be read back is encoded in the collection's context. The payload
makes an object with its contents, in the form of the blank object of the type, both where an object
of just this type is asked for and through each family that has the code in its range. The object
has the same payload again. If the payload has a trailer and one byte of it is changed, then all
these look-ups are refused, because of two checksums that differ. -/
theorem makes_encoded {name : String} {changes : List Catalogue.Change}
    (hbuild : ((Catalogue.empty name).changeAll changes).2.1.build = .ok c)
    (hreg : reg ∈ c.catalogue.types) (hblank : reg.blank = .ok blank) (hplain : blank.isPlain)
    {r : Record} (hform : r.alike blank) (hr : r.isRecoverable)
    (hroom : (sealed options r.layout).length ≤ maxLength) (traced : Bool) :
    ∃ payload object, (r.encode c.catalogue.context options).result = .ok payload ∧
      r.agrees object ∧ blank.alike object ∧
      (object.encode c.catalogue.context options).result = .ok payload ∧
      (c.makeTyped traced reg.tag reg.code payload options).result = .ok object ∧
      (∀ f ∈ c.catalogue.families, f.range.contains reg.code →
        (c.make traced f.tag reg.code payload options).result = .ok ⟨reg.tag, object⟩) ∧
      (meets options Options.checksum → ∀ i, (h : i < payload.length) → ∀ b, b ≠ payload[i] →
        ∃ stored computed, stored ≠ computed ∧
          let e := Error.corruptPayload reg.code (.checksum stored computed)
          (c.makeTyped traced reg.tag reg.code (payload.set i b) options).result = .error e ∧
          ∀ f ∈ c.catalogue.families, f.range.contains reg.code →
            (c.make traced f.tag reg.code (payload.set i b) options).result = .error e) := by
  have hc : c.catalogue.Sound := by
    rw [Catalogue.build_eq_ok hbuild]
    exact Catalogue.sound_changeAll (Catalogue.sound_empty name) changes
  obtain ⟨hrplain, hencodable, -⟩ := Record.isRecoverable_iff.mp hr
  have hagrees : r.agrees (r.deliver blank) := Record.agrees_deliver hrplain hform
  have hlayout : (r.deliver blank).layout = r.layout := Record.layout_eq_of_agrees hagrees
  refine ⟨sealed options r.layout, r.deliver blank,
    Sizer.encode_of_isEncodable c.catalogue.context hencodable hroom, hagrees,
    Record.alike_deliver hform, ?_, ?_⟩
  · rw [← hlayout] at hroom ⊢
    exact Sizer.encode_of_isEncodable c.catalogue.context
      (Record.isEncodable_of_agrees hagrees hencodable) hroom
  · obtain ⟨hdecoded, hrecord⟩ :=
      Decoder.decode_sealed c.catalogue.context options hr hform
    -- the type and its families are looked up alike, so this is said of all of them at once
    have hmakes : ∀ tag, c.catalogue.Leads reg tag →
        (c.make traced tag reg.code (sealed options r.layout) options).result =
          .ok ⟨reg.tag, r.deliver blank⟩ := by
      intro tag hlead
      rw [← hrecord]
      exact make_of_decoded hc hreg hblank hlead hplain hdecoded
    refine ⟨makeTyped_of_ok (hmakes reg.tag .self),
      fun f hf hcode => hmakes f.tag (.family hf hcode), ?_⟩
    intro hchecksum i hi b hb
    obtain ⟨stored, computed, hne, hrefused⟩ :=
      Decoder.decode_set c.catalogue.context hchecksum r.layout hi hb
    have hcorrupt : ∀ tag, c.catalogue.Leads reg tag →
        (c.make traced tag reg.code ((sealed options r.layout).set i b) options).result =
          .error (.corruptPayload reg.code (.checksum stored computed)) :=
      fun tag hlead => make_of_corrupt hc hreg hblank hlead (hrefused blank)
    exact ⟨stored, computed, hne, makeTyped_of_error (hcorrupt reg.tag .self),
      fun f hf hcode => hcorrupt f.tag (.family hf hcode)⟩

/-- One of two types, made through their family and with a trailer. -/
theorem makes_encoded_number :
    let number (n : UInt8) := Record.strict [.leaf "n" .u8 n]
    let changes : List Catalogue.Change := [.register ⟨7, "Number", ⟨"Number"⟩, .ok (number 0)⟩,
      .register ⟨8, "Wide", ⟨"Wide"⟩, .ok (.strict [.leaf "n" .u32 0])⟩,
      .declare ⟨⟨"Numbers"⟩, ⟨7, 8⟩⟩]
    ∃ c, ((Catalogue.empty "numbers").changeAll changes).2.1.build = .ok c ∧
      ∃ payload object, ((number 5).encode .unknown Options.checksum).result = .ok payload ∧
        (number 5).agrees object ∧
        (c.make true ⟨"Numbers"⟩ 7 payload Options.checksum).result =
          .ok ⟨⟨"Number"⟩, object⟩ := by
  intro number changes
  have hbuild : ((Catalogue.empty "numbers").changeAll changes).2.1.build =
      .ok ⟨((Catalogue.empty "numbers").changeAll changes).2.1, rfl⟩ := rfl
  refine ⟨_, hbuild, ?_⟩
  have hroom : (sealed Options.checksum (number 5).layout).length ≤ maxLength := by decide
  obtain ⟨payload, object, hencoded, hagrees, -, -, -, hmade, -⟩ :=
    makes_encoded hbuild List.mem_cons_self rfl rfl rfl (by decide) hroom true
  exact ⟨payload, object, hencoded, hagrees, hmade _ List.mem_cons_self rfl⟩

end Collection

end RecordCodec
