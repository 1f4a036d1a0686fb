import RecordCodec.Binary.Length
import RecordCodec.Checksum
import RecordCodec.Sink
import RecordCodec.Text.Utf8
import RecordCodec.Visit

/-!
# The binary encoder

| kind   | bytes                                                       |
|--------|-------------------------------------------------------------|
| `u32`, `u16`, `u8` | the number, big-endian                          |
| `bool` | one byte, 0 or 1                                            |
| `fixed` | the bytes                                                  |
| `block` | a length field and the bytes; or the bytes and a zero byte, for a terminated block |
| `text` | a length field and the UTF-8 bytes                          |

With the checksum option, the CRC-32 of everything that the encoder wrote follows, big-endian, as a
trailer.

## The trailer

The trailer belongs to the traversal and not to a record: each run ends by writing it, and the next
run begins by taking it off again (`Encoder.framed` tells whether the sink ends in one). What the
sink held before the encoder was started (`Encoder.origin`) is not covered. A run that failed leaves
no trailer.

A length field is written before its block and is committed, and traced, even if the block then does
not fit.
-/

namespace RecordCodec

/-- The memory of an encoder. -/
structure Encoder where
  sink : Sink
  /-- The committed length when the encoder was started. -/
  origin : Nat
  /-- The sink ends in a trailer. -/
  framed : Bool
  deriving DecidableEq, Repr

namespace Encoder

/-- An encoder that appends to a sink. -/
def start (context : Context) (options : Mask) (sink : Sink) : Traversal Encoder :=
  .start .encode context options ⟨sink, sink.length, false⟩

/-- Commits bytes to the sink. -/
def put (data : Bytes) : Act Encoder Unit := do
  Act.check
  let e ← Act.store
  let sink ← Act.require (e.sink.append data)
  Act.modifyStore fun e => { e with sink := sink }

/-- Reports a field that was written. -/
def wrote (name : String) (shown : Shown) : Act Encoder Unit :=
  Act.report (.field .written name shown)

/-- Writes a 32-bit number. -/
def putWord (name : String) (v : UInt32) : Act Encoder Unit := do
  put (bigEndian 4 v.toNat)
  wrote name (.u32 v)

/-- Writes a length field and the bytes that it announces. -/
def putMeasured (name : String) (data : Bytes) : Act Encoder Unit := do
  Act.check
  let n ← Act.require (lengthField name data.length)
  putWord name n
  put data

/-- Writes bytes and a terminator. -/
def putTerminated (name : String) (data : Bytes) : Act Encoder Unit := do
  Act.check
  if data.contains 0 then Act.fail (.embeddedTerminator name)
  else put (data ++ [0])

/-- Writes one leaf. -/
def write : (kind : Kind) → String → kind.Value → Act Encoder Unit
  | .u32, name, v => putWord name v
  | .u16, name, v => do
    put (bigEndian 2 v.toNat)
    wrote name (.u16 v)
  | .u8, name, v => do
    put [v]
    wrote name (.u8 v)
  | .bool, name, v => do
    put [if v then 1 else 0]
    wrote name (.bool v)
  | .fixed, name, bs => do
    put bs
    wrote name (.fixed bs.length (leading bs))
  | .block flags, name, b => do
    if meets flags BlockFlags.terminated then putTerminated name b.toBytes
    else putMeasured name b.toBytes
    wrote name (.block b.length (leading b.toBytes) none)
  | .text, name, s => do
    putMeasured name (utf8 s)
    wrote name (.text s)

/-- Takes the trailer off the sink, if there is one. -/
def dropTrailer (e : Encoder) : Encoder :=
  if e.framed then { e with sink := e.sink.resize (e.sink.length - wordSize), framed := false }
  else e

/-- The bytes that the encoder committed. -/
def body (e : Encoder) : Bytes :=
  e.sink.committed.drop e.origin

/-- Writes the checksum of the encoder's bytes behind them. -/
def putTrailer : Act Encoder Unit := do
  let e ← Act.store
  let crc := crc32 e.body
  put (bigEndian 4 crc.toNat)
  Act.modifyStore fun e => { e with framed := true }
  Act.report (.trailer .written crc)

/-- Ends a run: writes the trailer, if the options ask for one and no error is stored. -/
def finish : Act Encoder Unit := do
  let t ← Act.state
  if t.error.isSome || !t.has Options.checksum then pure () else putTrailer

instance : Codec Encoder where
  visit kind name v := do
    write kind name v
    pure v
  openRun := Act.modifyStore dropTrailer
  closeRun := finish

end Encoder

end RecordCodec
