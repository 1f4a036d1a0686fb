import RecordCodec.Itinerary
import RecordCodec.Text.Hex
import RecordCodec.Text.Utf8

/-!
# The key of a record

What the token of a plain record is, said without a key encoder: a border follows each of its stops,
and a leaf has its own bytes before that.
-/

namespace RecordCodec

/-- The bytes of a value in a key. -/
def Kind.token : (k : Kind) → k.Value → Bytes
  | .u32, v => Hex.encode (bigEndian 4 v.toNat)
  | .u16, v => Hex.encode (bigEndian 2 v.toNat)
  | .u8, v => Hex.encode (bigEndian 1 v.toNat)
  | .bool, v => [if v then 49 else 48]
  | .fixed, bs => bs
  | .block _, b => Hex.encode (bigEndian 4 b.length) ++ b.toBytes
  | .text, s => Hex.encode (bigEndian 4 (utf8 s).length) ++ utf8 s

/-- The bytes of a stop. -/
def Stop.token (border : Bytes) : Stop → Bytes
  | .leaf l => l.kind.token l.value ++ border
  | .close => border

/-- The key of a record, for a given border. -/
def Record.token (border : Bytes) (r : Record) : Bytes :=
  r.stops.flatMap (Stop.token border)

end RecordCodec
