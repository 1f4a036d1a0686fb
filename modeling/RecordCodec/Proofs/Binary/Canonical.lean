import RecordCodec.Proofs.Binary.Acceptance
import RecordCodec.Proofs.Binary.Framing
import RecordCodec.Proofs.History

/-!
# Decoding and encoding again

`Decoder.runs_committed` says that what was encoded is decoded. Here is the other half, about bytes
that nobody need have encoded: where a run of a decoder succeeds, the bytes that it consumed are the
form of the record that it gives. So encoding undoes decoding, and no two inputs stand for the same
record. For truth values, which may be read from any byte, all this is true as long as the bytes
are zero and one.

The decoder may be anywhere in its history: it may have run before, failed and been cleared of its
error, and been sent back to its start.

## Main definitions

* `Decoder.Session` — a decoder without a trailer, somewhere in its history.
* `Decoder.Session.consumed` — the bytes that its next run consumes.
* `Decoder.Session.Strict` — the next run meets no truth value but zero and one.

## Main results

* `Decoder.Session.spells_consumed` — what is known of a run that succeeds.
* `Decoder.Session.canonical` — encoding undoes decoding.
-/

namespace RecordCodec

/-- Without truth values there is nothing to ask. -/
theorem bitsOnly_of_kinds {ss : List Stop} (h : LeavesFit (fun l => l.kind != .bool) ss)
    (bs : Bytes) : bitsOnly (ss.flatMap Stop.truthMarks) bs := by
  refine bitsOnly_of_unmarked ?_ bs
  intro mark hmark
  obtain ⟨s, hs, hmark⟩ := List.mem_flatMap.mp hmark
  cases s with
  | leaf l =>
    have hkind := h l hs
    rw [List.eq_of_mem_replicate hmark, ← Bool.not_eq_true', ← bne]
    exact hkind
  | close => exact absurd hmark List.not_mem_nil

/-- A record that is encoded alone and without a trailer is its form. -/
theorem Encoder.run_unframed (context : Context) {options : Mask}
    (hoptions : ¬meets options Options.checksum) {r : Record} (hr : r.isEncodable)
    (hroom : r.layout.length ≤ maxLength) :
    let written := run r (Encoder.start context options (Sink.empty none))
    written.result = .ok () ∧ written.state.store.sink.committed = r.layout := by
  intro written
  have htrailer : trailerLength options = 0 := if_neg hoptions
  have hstart : Wrote (Sink.empty none).committed [] (r.layout.length + 0)
      (start context options (Sink.empty none)) :=
    wrote_start (by rwa [htrailer, Sink.reserve_empty_iff])
  obtain ⟨t', log, hwritten, hoptions', hended⟩ := hstart.run hr
  have hsealed := hended.committed
  rw [hoptions'] at hsealed
  have hbare : sealed options r.layout = r.layout := by
    rw [sealed, trailer_of_not_meets hoptions, List.append_nil]
  show (run r (start context options (Sink.empty none))).result = _ ∧
    (run r (start context options (Sink.empty none))).state.store.sink.committed = _
  rw [hwritten]
  exact ⟨rfl, hsealed.trans hbare⟩

namespace Decoder

/-! ### Sessions -/

/-- A decoder that looks for no trailer, at the end of a history. -/
structure Session where
  context : Context
  options : Mask
  buffer : Bytes
  history : List Step
  unframed : ¬meets options Options.checksum
  inMemory : buffer.length ≤ maxLength

namespace Session

/-- The decoder. -/
def state (d : Session) : Traversal Decoder :=
  (performAll d.history (start d.context d.options d.buffer)).2.1

/-- The next run. -/
def read (d : Session) (r : Record) : Visited Decoder Record :=
  run r d.state

/-- The place in the input where the decoder stands. -/
def offset (d : Session) : Nat :=
  d.state.store.cursor.offset

/-- The place where it stands after the next run. -/
def offsetAfter (d : Session) (r : Record) : Nat :=
  (d.read r).state.store.cursor.offset

/-- The bytes between the two. -/
def consumed (d : Session) (r : Record) : Bytes :=
  (d.buffer.drop d.offset).take (d.offsetAfter r - d.offset)

variable (d : Session)

theorem unframed_state : Unframed d.buffer d.state :=
  performAll_keeps keeps_unframed d.history (unframed_start d.context d.buffer d.unframed)

/-- **What is known of a run that succeeds**: it moves forward, and the stops of the record that it
gives spell the bytes that it consumes. -/
theorem spells_consumed {r : Record} (hr : r.isPlain) (hrun : (d.read r).result = .ok ()) :
    d.offset + (d.consumed r).length = d.offsetAfter r ∧
      Decoded Stop.layout Stop.ReadFrom r.stops (d.read r).value.stops
        (r.alike (d.read r).value) (d.read r).value.isPlain
        ((d.read r).value.everySequence fewEnough) (d.consumed r) := by
  have hbefore := d.unframed_state
  have hafter := run_keeps keeps_unframed r d.state hbefore
  have hlaw : Accepts (terms d.state.store False) Stop.layout Stop.ReadFrom := accepts
  exact hlaw.run_consumes hr nofun hbefore.prepare (fun _ => rfl) hbefore.facing hbefore.whole
    hafter.whole hrun

/-- The form of the record is what was consumed, but for truth values. -/
theorem layout_read {r : Record} (hr : r.isPlain) (hrun : (d.read r).result = .ok ()) :
    (d.read r).value.isEncodable ∧
      (d.read r).value.layout.length = (d.consumed r).length ∧
      (d.read r).value.layout = normalised (d.read r).value.truthMarks (d.consumed r) := by
  obtain ⟨-, hdecoded⟩ := d.spells_consumed hr hrun
  obtain ⟨hfit, hlength, hlayout⟩ := hdecoded.spells.readFrom
  rw [Record.layout_eq_flatMap]
  exact ⟨Record.isSerial_iff.mpr
    ⟨Record.isData_of_isPlain hdecoded.isPlain, hfit, hdecoded.fewEnough⟩, hlength, hlayout⟩

/-- The run met no truth value but zero and one. -/
def Strict (r : Record) : Prop :=
  r.everyKind (· != .bool) ∨ bitsOnly (d.read r).value.truthMarks (d.consumed r)

theorem layout_of_strict {r : Record} (hr : r.isPlain) (hrun : (d.read r).result = .ok ())
    (h : d.Strict r) : (d.read r).value.layout = d.consumed r := by
  obtain ⟨-, hdecoded⟩ := d.spells_consumed hr hrun
  obtain ⟨-, hlength, hlayout⟩ := d.layout_read hr hrun
  have hmarks : (d.read r).value.truthMarks.length = (d.consumed r).length := by
    rw [← hlength, Record.truthMarks, length_truthMarks, Record.layout_eq_flatMap]
  rw [hlayout]
  refine normalised_of_bitsOnly hmarks ?_
  rcases h with hkinds | hbits
  · exact bitsOnly_of_kinds (Record.kinds_of_alike hdecoded.isAlike hdecoded.isPlain hkinds) _
  · exact hbits

/-- **Encoding undoes decoding.** Where a run of a plain record succeeds, the record that it gives
has its form, and is encoded, into a sink that only memory limits, as the bytes that the run
consumed, but for nonzero truth values, which become one. If there were none but one, the bytes are
the same, and no other such bytes are decoded as the record. -/
theorem canonical (context : Context) {options : Mask} (hoptions : ¬meets options Options.checksum)
    {r : Record} (hr : r.isPlain) (hrun : (d.read r).result = .ok ()) :
    let v := (d.read r).value
    let written := run v (Encoder.start context options (Sink.empty none))
    let committed := written.state.store.sink.committed
    d.offset ≤ d.offsetAfter r ∧ r.alike v ∧
      (written.result = .ok () ∧ committed.length = d.offsetAfter r - d.offset ∧
        committed = normalised v.truthMarks (d.consumed r)) ∧
      (d.Strict r → committed = d.consumed r ∧
        ∀ d' : Session, (d'.read r).result = .ok () → d'.Strict r → (d'.read r).value = v →
          d'.consumed r = d.consumed r) := by
  intro v written committed
  obtain ⟨hmoved, hdecoded⟩ := d.spells_consumed hr hrun
  obtain ⟨hencodable, hlength, hlayout⟩ := d.layout_read hr hrun
  have hroom : (d.read r).value.layout.length ≤ maxLength := by
    have hmemory := d.inMemory
    have hconsumed : (d.consumed r).length ≤ d.buffer.length := by
      rw [consumed, List.length_take, List.length_drop]
      omega
    omega
  obtain ⟨hok, hcommitted⟩ : written.result = .ok () ∧ committed = v.layout :=
    Encoder.run_unframed context hoptions hencodable hroom
  refine ⟨by omega, hdecoded.isAlike, ⟨hok, ?_, ?_⟩, ?_⟩
  · have hsame : committed.length = (d.consumed r).length := by rw [hcommitted, hlength]
    omega
  · exact hcommitted.trans hlayout
  · intro hstrict
    rw [hcommitted]
    refine ⟨d.layout_of_strict hr hrun hstrict, ?_⟩
    intro d' hrun' hstrict' hsame
    rw [← d'.layout_of_strict hr hrun' hstrict', hsame]
    exact d.layout_of_strict hr hrun hstrict

/-- A decoder that has read one byte, with the specimen ahead and this byte for its truth value. -/
def specimen (truth : UInt8) : Session :=
  ⟨.network, 0, [9, 0, 0, 0, 7, 255, 254, truth, 1, 2, 5, 0, 0, 0, 0, 2, 97, 98, 0, 9, 0, 0, 0, 2, 1,
    2, 40], [.visit (.leaf "first" .u8 0)], by decide, Nat.le_of_ble_eq_true rfl⟩

/-- A seven is written as a one; a one is written as it was read. -/
theorem canonical_specimen :
    let r := Record.specimen.blank
    let written := fun d : Session =>
      (run (d.read r).value (Encoder.start .storage 0 (Sink.empty none))).state.store.sink.committed
    written (specimen 7) = normalised ((specimen 7).read r).value.truthMarks
        ((specimen 7).consumed r) ∧
      written (specimen 1) = (specimen 1).consumed r := by
  have hoptions : ¬meets 0 Options.checksum := by decide
  have hplain : Record.specimen.blank.isPlain := by decide
  obtain ⟨-, -, ⟨-, -, hseven⟩, -⟩ := (specimen 7).canonical .storage hoptions hplain rfl
  obtain ⟨-, -, -, hone⟩ := (specimen 1).canonical .storage hoptions hplain rfl
  obtain ⟨hsame, -⟩ := hone (.inr rfl)
  exact ⟨hseven, hsame⟩

end Session

end Decoder

end RecordCodec
