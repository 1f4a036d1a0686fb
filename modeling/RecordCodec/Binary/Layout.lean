import RecordCodec.Itinerary
import RecordCodec.Text.Utf8

/-!
# The binary form of a record

What the bytes of a plain record are, said without an encoder: the bytes of its leaves, one after
the other. Nested records and sequences add no bytes of their own, and the count of a sequence is
itself a leaf.
-/

namespace RecordCodec

/-- The bytes of a value. -/
def Kind.layout : (k : Kind) → k.Value → Bytes
  | .u32, v => bigEndian 4 v.toNat
  | .u16, v => bigEndian 2 v.toNat
  | .u8, v => bigEndian 1 v.toNat
  | .bool, v => [if v then 1 else 0]
  | .fixed, bs => bs
  | .block flags, b =>
    if meets flags BlockFlags.terminated then b.toBytes ++ [0]
    else bigEndian 4 b.length ++ b.toBytes
  | .text, s => bigEndian 4 (utf8 s).length ++ utf8 s

/-- The bytes of a leaf. -/
def Leaf.layout (l : Leaf) : Bytes :=
  l.kind.layout l.value

/-- The binary form of a record. -/
def Record.layout (r : Record) : Bytes :=
  r.leaves.flatMap Leaf.layout

end RecordCodec
