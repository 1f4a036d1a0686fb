import RecordCodec.Binary.Length
import RecordCodec.Checksum
import RecordCodec.Event
import RecordCodec.Proofs.Encodable

/-!
# The binary form, piece by piece

What an encoder and a decoder have in common, said without either: the bytes of each stop, the
events that are reported of it, and the trailer that ends the bytes of a traversal.

## Main definitions

* `Stop.layout`, `Stop.events` — the bytes and the events of a stop.
* `Field.layout` — the binary form of a field.
* `sealed` — bytes with the trailer that the options ask for.

## Main results

* `Record.layout_eq_flatMap` — the binary form of a record, stop by stop.
-/

namespace RecordCodec

/-! ### Layouts along an itinerary -/

/-- The bytes of a stop. -/
def Stop.layout : Stop → Bytes
  | .leaf l => l.layout
  | .close => []

/-- The binary form of a field. -/
def Field.layout (f : Field) : Bytes :=
  f.stops.flatMap Stop.layout

/-- Only leaves have bytes. -/
theorem flatMap_layout (ss : List Stop) :
    ss.flatMap Stop.layout = (ss.filterMap Stop.leaf?).flatMap Leaf.layout := by
  induction ss with
  | nil => rfl
  | cons s ss ih =>
    cases s with
    | leaf l => simp only [List.filterMap_cons, Stop.leaf?, List.flatMap_cons, ih, Stop.layout]
    | close =>
      simp only [List.filterMap_cons, Stop.leaf?, List.flatMap_cons, ih, Stop.layout,
        List.nil_append]

theorem Record.layout_eq_flatMap (r : Record) : r.layout = r.stops.flatMap Stop.layout :=
  (flatMap_layout r.stops).symm

/-! ### Events of a leaf -/

/-- Whether the event of a block says that the record owns it: only a decoder's does. -/
def Flow.owner (flags : Mask) : Flow → Option Bool
  | .written => none
  | .read => some (meets flags BlockFlags.owned)

/-- The events of a value: one of its own, behind one of its length field if it has one. -/
def Kind.events (flow : Flow) (name : String) : (k : Kind) → k.Value → List Event
  | .u32, v => [.field flow name (.u32 v)]
  | .u16, v => [.field flow name (.u16 v)]
  | .u8, v => [.field flow name (.u8 v)]
  | .bool, v => [.field flow name (.bool v)]
  | .fixed, bs => [.field flow name (.fixed bs.length (leading bs))]
  | .block flags, b =>
    (if meets flags BlockFlags.terminated then []
      else [.field flow name (.u32 (UInt32.ofNat b.length))]) ++
    [.field flow name (.block b.length (leading b.toBytes) (flow.owner flags))]
  | .text, s =>
    [.field flow name (.u32 (UInt32.ofNat (utf8 s).length)), .field flow name (.text s)]

/-- The events of a stop. -/
def Stop.events (flow : Flow) : Stop → List Event
  | .leaf l => l.kind.events flow l.name l.value
  | .close => []

/-! ### Trailers -/

/-- What stands behind the bytes of a traversal. -/
def trailer (options : Mask) (body : Bytes) : Bytes :=
  if meets options Options.checksum then bigEndian 4 (crc32 body).toNat else []

/-- The number of bytes of a trailer. -/
def trailerLength (options : Mask) : Nat :=
  if meets options Options.checksum then wordSize else 0

theorem trailer_of_meets {options : Mask} (h : meets options Options.checksum) (body : Bytes) :
    trailer options body = bigEndian 4 (crc32 body).toNat :=
  if_pos h

theorem trailer_of_not_meets {options : Mask} (h : ¬meets options Options.checksum)
    (body : Bytes) : trailer options body = [] :=
  if_neg h

@[simp] theorem length_trailer (options : Mask) (body : Bytes) :
    (trailer options body).length = trailerLength options := by
  rw [trailerLength]
  by_cases h : meets options Options.checksum
  · rw [trailer_of_meets h, if_pos h, length_bigEndian, wordSize]
  · rw [trailer_of_not_meets h, if_neg h, List.length_nil]

/-- A trailer depends on the bytes only where there is one. -/
theorem trailer_congr {options : Mask} {body body' : Bytes}
    (h : meets options Options.checksum → body = body') :
    trailer options body = trailer options body' := by
  by_cases hc : meets options Options.checksum
  · rw [h hc]
  · rw [trailer_of_not_meets hc, trailer_of_not_meets hc]

/-- Bytes and their trailer. -/
def sealed (options : Mask) (body : Bytes) : Bytes :=
  body ++ trailer options body

theorem length_sealed (options : Mask) (body : Bytes) :
    (sealed options body).length = body.length + trailerLength options := by
  rw [sealed, List.length_append, length_trailer]

/-- The event of a trailer. -/
def trailerEvents (flow : Flow) (options : Mask) (body : Bytes) : List Event :=
  if meets options Options.checksum then [.trailer flow (crc32 body)] else []

end RecordCodec
