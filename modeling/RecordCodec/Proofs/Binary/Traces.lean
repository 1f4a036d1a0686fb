import RecordCodec.Proofs.Binary.Framing
import RecordCodec.Proofs.Binary.RoundTrip

/-!
# The traces of a round trip

An encoder and a decoder each report what they do, field by field. They have nothing in common that
would keep the reports in step, apart from the form of the record: length fields are written and
read by one function each, or left out for a block with a terminator, and counts of sequences come
from the walk. Yet each report is the echo of the other. Event by event they show the same of the
same fields, in opposite directions, and what the decoder adds is whether a block is owned.

The trailer is the exception. The encoder makes it at the end of its run; the decoder has checked it
before it reads anything.

## Main definitions

* `Record.owners` — for each block of a record, whether it is decoded into bytes of its own.
* `Echoes` — the events of a decoder are the echo of those of an encoder.
* `Event.Answers` — the same for the texts of two events.

## Main results

* `echoes_stops` — the events along an itinerary.
* `Echoes.answers`, `Echoes.owned` — what the echo is in texts.
* `Decoder.trace_echoes` — the traces of a record that is encoded and decoded.
-/

namespace RecordCodec

/-- Whether a block is decoded into bytes of its own. Other leaves have no answer. -/
def Leaf.owner? (l : Leaf) : Option Bool :=
  match l.kind with
  | .block flags => some (meets flags BlockFlags.owned)
  | _ => none

/-- Whether each block of a record is decoded into bytes of its own, in the order of visits. -/
def Record.owners (r : Record) : List Bool :=
  r.leaves.filterMap Leaf.owner?

/-- The value that is shown is a block of variable length. -/
def Shown.isBlock : Shown → Bool
  | .block _ _ _ => true
  | _ => false

/-- The events that were read show what was written, one by one and under the same names. For each
block they show besides whether it is owned, as `owners` has it. -/
inductive Echoes : (owners : List Bool) → (written read : List Event) → Prop
  | nil : Echoes [] [] []
  | field {owners : List Bool} {written read : List Event} {shown : Shown} (name : String)
      (hshown : ¬shown.isBlock) : Echoes owners written read →
    Echoes owners (.field .written name shown :: written) (.field .read name shown :: read)
  | block {owners : List Bool} {written read : List Event} (owner : Bool) (name : String)
      (length : Nat) (head : Bytes) : Echoes owners written read →
    Echoes (owner :: owners) (.field .written name (.block length head none) :: written)
      (.field .read name (.block length head (some owner)) :: read)

namespace Echoes

variable {owners owners' : List Bool} {written written' read read' : List Event}

theorem append (h : Echoes owners written read) (h' : Echoes owners' written' read') :
    Echoes (owners ++ owners') (written ++ written') (read ++ read') := by
  induction h with
  | nil => exact h'
  | field name hshown _ ih => exact .field name hshown ih
  | block owner name length head _ ih => exact .block owner name length head ih

end Echoes

/-! ### Along an itinerary -/

/-- A leaf is read with the events that it was written with, its length field included. -/
theorem echoes_leaf (l : Leaf) :
    Echoes l.owner?.toList (Stop.events .written (.leaf l)) (Stop.events .read (.leaf l)) := by
  obtain ⟨name, kind, v⟩ := l
  cases kind with
  | u32 | u16 | u8 | bool | fixed => exact .field name Bool.false_ne_true .nil
  | block flags =>
    have hblock : Echoes [meets flags BlockFlags.owned]
        [.field .written name (.block v.length (leading v.toBytes) none)]
        [.field .read name
          (.block v.length (leading v.toBytes) (some (meets flags BlockFlags.owned)))] :=
      .block _ name _ _ .nil
    simp only [Stop.events, Kind.events, Flow.owner]
    by_cases hterm : meets flags BlockFlags.terminated
    · rw [if_pos hterm, if_pos hterm]
      exact hblock
    · rw [if_neg hterm, if_neg hterm]
      exact .field name Bool.false_ne_true hblock
  | text => exact .field name Bool.false_ne_true (.field name Bool.false_ne_true .nil)

/-- **Stops are read with the events that they were written with.** -/
theorem echoes_stops (ss : List Stop) :
    Echoes ((ss.filterMap Stop.leaf?).filterMap Leaf.owner?)
      (ss.flatMap (Stop.events .written)) (ss.flatMap (Stop.events .read)) := by
  induction ss with
  | nil => exact .nil
  | cons s ss ih =>
    cases s with
    | leaf l =>
      have howners : (((Stop.leaf l :: ss).filterMap Stop.leaf?).filterMap Leaf.owner?) =
          l.owner?.toList ++ (ss.filterMap Stop.leaf?).filterMap Leaf.owner? := by
        show (l :: ss.filterMap Stop.leaf?).filterMap Leaf.owner? = _
        cases hl : l.owner? with
        | none => exact List.filterMap_cons_none hl
        | some o => exact List.filterMap_cons_some hl
      rw [howners, List.flatMap_cons, List.flatMap_cons]
      exact (echoes_leaf l).append ih
    | close => exact ih

/-! ### In texts -/

/-- A traced event answers another: their messages differ in the arrow only, and their attributes
are the same apart from the one that tells whether a block is owned. -/
structure Event.Answers (written read : Event) : Prop where
  levels : written.level = .trace ∧ read.level = .trace
  messages : ∃ what, written.message = what ++ " =>" ∧ read.message = what ++ " <="
  attributes : read.attributes.filter (·.1 != "owned") = written.attributes

/-- What a field of the two directions shows answers itself, if it shows the same. -/
theorem Event.answers_field {name : String} {shown shown' : Shown}
    (hkind : shown'.kindName = shown.kindName)
    (hattributes : (shown'.attributes.filter fun a => a.1 != "owned") = shown.attributes) :
    Event.Answers (.field .written name shown) (.field .read name shown') where
  levels := ⟨rfl, rfl⟩
  messages := by
    refine ⟨shown.kindName, String.append_assoc, ?_⟩
    rw [← hkind]
    exact String.append_assoc
  attributes := by
    have hname : ("field" != "owned") = true := by decide
    simp only [Event.attributes, List.filter_cons, hname, if_true, hattributes]

namespace Echoes

variable {owners : List Bool} {written read : List Event}

/-- The texts of what was read answer those of what was written, one by one. -/
theorem answers (h : Echoes owners written read) : List.Forall₂ Event.Answers written read := by
  induction h with
  | nil => exact .nil
  | @field _ _ _ shown name hshown _ ih =>
    refine .cons (Event.answers_field rfl ?_) ih
    cases shown with
    | block length head owned => exact absurd rfl hshown
    | u32 | u16 | u8 | bool | fixed | text => rfl
  | block owner name length head _ ih => exact .cons (Event.answers_field rfl rfl) ih

/-- The attributes that tell whether blocks are owned, all of them. -/
theorem owned (h : Echoes owners written read) :
    (read.flatMap Event.attributes).filter (·.1 == "owned") =
      owners.map fun owner => ("owned", .flag owner) := by
  induction h with
  | nil => rfl
  | @field _ _ _ shown name hshown _ ih =>
    have hnone : (Event.field .read name shown).attributes.filter (·.1 == "owned") = [] := by
      cases shown with
      | block length head owned => exact absurd rfl hshown
      | u32 | u16 | u8 | bool | fixed | text => rfl
    rw [List.flatMap_cons, List.filter_append, hnone, ih, List.nil_append]
  | block owner name length head _ ih =>
    rw [List.flatMap_cons, List.filter_append, ih]
    rfl

end Echoes

/-! ### There and back -/

/-- The trace of an encoder that was just started, and what is in its sink. -/
theorem Encoder.run_empty (context : Context) {options : Mask} {r : Record} (hr : r.isEncodable)
    (hroom : (sealed options r.layout).length ≤ maxLength) :
    ∃ t, run r (start context options (Sink.empty none)) =
        ⟨.ok (), r, t,
          r.stops.flatMap (Stop.events .written) ++ trailerEvents .written options r.layout⟩ ∧
      t.store.sink.committed = sealed options r.layout := by
  rw [← Sink.reserve_empty_iff, length_sealed] at hroom
  have hencodes : (start context options (Sink.empty none)).direction ≠ .decode := by
    show Direction.encode ≠ .decode
    decide
  exact ⟨_, run_record hr rfl hencodes hroom, rfl⟩

namespace Decoder

/-- **The traces of a round trip.** A record is encoded into a sink that only memory limits, and
decoded with the same options into a record of its form. Both runs succeed. The encoder's trace ends
in the event of the trailer if the options ask for one, and the decoder's begins with it, with the
same checksum. The other events of the decoder are the echo of those of the encoder: in the same
order, with the same names and the same of the values, only with the arrow turned around, and with
the ownership of each block as the flags of its field have it. -/
theorem trace_echoes (context context' : Context) (options : Mask) {r s : Record}
    (hr : r.isRecoverable) (hs : r.alike s)
    (hroom : (sealed options r.layout).length ≤ maxLength) :
    let encoded := run r (Encoder.start context options (Sink.empty none))
    let decoded := run s (start context' options encoded.state.store.sink.committed)
    encoded.result = .ok () ∧ decoded.result = .ok () ∧ ∃ written read,
      encoded.log = written ++ trailerEvents .written options r.layout ∧
      decoded.log = trailerEvents .read options r.layout ++ read ∧
      Echoes r.owners written read ∧ List.Forall₂ Event.Answers written read ∧
      (read.flatMap Event.attributes).filter (·.1 == "owned") =
        r.owners.map fun owner => ("owned", .flag owner) := by
  obtain ⟨-, hencodable, -⟩ := Record.isRecoverable_iff.mp hr
  obtain ⟨t, hencoded, hcommitted⟩ := Encoder.run_empty context hencodable hroom
  obtain ⟨t', hdecoded⟩ := run_sealed context' options hr hs
  have hechoes : Echoes r.owners (r.stops.flatMap (Stop.events .written))
      (r.stops.flatMap (Stop.events .read)) := echoes_stops r.stops
  simp only [hencoded, hcommitted, hdecoded]
  exact ⟨trivial, trivial, _, _, rfl, rfl, hechoes, hechoes.answers, hechoes.owned⟩

/-- A record with a part of every shape, with a trailer. -/
theorem trace_echoes_specimen :
    let encoded := run Record.specimen (Encoder.start .network Options.checksum (Sink.empty none))
    let decoded := run Record.specimen.blank
      (start .storage Options.checksum encoded.state.store.sink.committed)
    encoded.result = .ok () ∧ decoded.result = .ok () ∧ ∃ written read crc,
      encoded.log = written ++ [.trailer .written crc] ∧
      decoded.log = [.trailer .read crc] ++ read ∧ Echoes [false] written read := by
  obtain ⟨hencoded, hdecoded, written, read, hwritten, hread, hechoes, -, -⟩ :=
    trace_echoes .network .storage Options.checksum (r := Record.specimen)
      (s := Record.specimen.blank) (by decide) (by decide) (by decide)
  exact ⟨hencoded, hdecoded, written, read, crc32 Record.specimen.layout, hwritten, hread, hechoes⟩

end Decoder

end RecordCodec
