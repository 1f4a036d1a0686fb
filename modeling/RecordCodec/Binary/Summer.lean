import RecordCodec.Binary.Length
import RecordCodec.Checksum
import RecordCodec.Text.Utf8
import RecordCodec.Visit

/-!
# The checksum of the binary form

A summer takes the bytes that an encoder without trailer would write into a CRC-32 register, piece
by piece, and stores none of them. It does not look into blocks, so it also sums up a block that
cannot be encoded because it contains its terminator.
-/

namespace RecordCodec

/-- The memory of a summer: the register. -/
structure Summer where
  register : UInt32
  deriving DecidableEq, Repr

namespace Summer

/-- A summer with nothing taken in. -/
def start (context : Context) : Traversal Summer :=
  .start .inspect context 0 ⟨Crc32.start⟩

/-- The checksum of all that was taken in. -/
def sum (s : Summer) : UInt32 :=
  Crc32.finish s.register

/-- Takes bytes in. -/
def feed (bs : Bytes) : Act Summer Unit := do
  Act.check
  Act.modifyStore fun s => ⟨Crc32.feedAll s.register bs⟩

/-- Takes in a length field and the bytes that it announces. -/
def feedMeasured (name : String) (bs : Bytes) : Act Summer Unit := do
  Act.check
  let n ← Act.require (lengthField name bs.length)
  feed (bigEndian 4 n.toNat)
  feed bs

/-- Takes in one leaf. -/
def absorb : (kind : Kind) → String → kind.Value → Act Summer Unit
  | .u32, _, v => feed (bigEndian 4 v.toNat)
  | .u16, _, v => feed (bigEndian 2 v.toNat)
  | .u8, _, v => feed [v]
  | .bool, _, v => feed [if v then 1 else 0]
  | .fixed, _, bs => feed bs
  | .block flags, name, b => do
    if meets flags BlockFlags.terminated then do
      feed b.toBytes
      feed [0]
    else feedMeasured name b.toBytes
    Act.report (.summed name b.length)
  | .text, name, s => feedMeasured name (utf8 s)

instance : Codec Summer where
  visit kind name v := do
    absorb kind name v
    pure v

end Summer

end RecordCodec
