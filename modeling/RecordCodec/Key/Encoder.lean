import RecordCodec.Binary.Length
import RecordCodec.Sink
import RecordCodec.Text.Utf8
import RecordCodec.Visit

/-!
# Writing keys

A key is a record as a token whose bytes can be compared: numbers stand in it as lower-case
hexadecimal digits of fixed width, so that the order of tokens is the order of numbers.

| kind   | bytes                                        |
|--------|----------------------------------------------|
| `u32`, `u16`, `u8` | 8, 4 or 2 digits                 |
| `bool` | `1` or `0`                                   |
| `fixed` | the bytes                                   |
| `block`, `text` | 8 digits of length, and the bytes   |

A border, if there is one, follows every leaf and every nested record. The flags of a block do not
matter here.
-/

namespace RecordCodec

/-- The memory of a key encoder. -/
structure KeyEncoder where
  sink : Sink
  border : Bytes
  deriving DecidableEq, Repr

namespace KeyEncoder

/-- A key encoder that appends to a sink. -/
def start (border : Option String) (sink : Sink) : Traversal KeyEncoder :=
  .start .encode .storage 0 ⟨sink, (border.map utf8).getD []⟩

/-- Commits bytes to the sink. -/
def put (data : Bytes) : Act KeyEncoder Unit := do
  Act.check
  let e ← Act.store
  let sink ← Act.require (e.sink.append data)
  Act.modifyStore fun e => { e with sink := sink }

/-- Writes bytes as digits. -/
def putDigits (bs : Bytes) : Act KeyEncoder Unit :=
  put (Hex.encode bs)

/-- Writes the digits of a length and the bytes that it announces. -/
def putMeasured (name : String) (data : Bytes) : Act KeyEncoder Unit := do
  Act.check
  let n ← Act.require (lengthField name data.length)
  putDigits (bigEndian 4 n.toNat)
  put data

/-- Writes one leaf. -/
def write : (kind : Kind) → String → kind.Value → Act KeyEncoder Unit
  | .u32, _, v => putDigits (bigEndian 4 v.toNat)
  | .u16, _, v => putDigits (bigEndian 2 v.toNat)
  | .u8, _, v => putDigits [v]
  | .bool, _, v => put [if v then 49 else 48]
  | .fixed, _, bs => put bs
  | .block _, name, b => do
    putMeasured name b.toBytes
    Act.report (.keyed name b.length)
  | .text, name, s => putMeasured name (utf8 s)

/-- Writes the border, if there is one. -/
def putBorder : Act KeyEncoder Unit := do
  let e ← Act.store
  if e.border.isEmpty then Act.check else put e.border

instance : Codec KeyEncoder where
  visit kind name v := do
    write kind name v
    pure v
  close := putBorder

end KeyEncoder

end RecordCodec
