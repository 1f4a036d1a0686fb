import RecordCodec.Bytes

/-!
# The CRC-32 of a byte string

The IEEE CRC-32: reflected polynomial 0xEDB88320, register started at all ones, and its complement
taken at the end.

## Main definitions

* `Crc32.step` — one bit of division.
* `Crc32.feed` — one byte into the register; `Crc32.feedAll` — a byte string.
* `crc32` — the checksum of a byte string.

The register is kept apart from the checksum, since a checksum can be taken of a text that arrives
in pieces: `feedAll` of an append is `feedAll` of one part after the other, while two checksums do
not combine in that way.
-/

namespace RecordCodec

namespace Crc32

/-- The register before any byte. -/
def start : UInt32 := 0xFFFFFFFF

/-- Divides one bit out of the register. -/
def step (c : UInt32) : UInt32 :=
  if c &&& 1 = 1 then (c >>> 1) ^^^ 0xEDB88320 else c >>> 1

/-- Takes one byte into the register. -/
def feed (c : UInt32) (b : UInt8) : UInt32 :=
  step (step (step (step (step (step (step (step (c ^^^ b.toUInt32))))))))

/-- Takes a byte string into the register, first byte first. -/
def feedAll (c : UInt32) (bs : Bytes) : UInt32 :=
  bs.foldl feed c

/-- The checksum that a register stands for. -/
def finish (c : UInt32) : UInt32 :=
  c ^^^ 0xFFFFFFFF

@[simp] theorem feedAll_nil (c : UInt32) : feedAll c [] = c := rfl

theorem feedAll_append (c : UInt32) (bs cs : Bytes) :
    feedAll c (bs ++ cs) = feedAll (feedAll c bs) cs :=
  List.foldl_append

end Crc32

/-- The CRC-32 of a byte string. -/
def crc32 (bs : Bytes) : UInt32 :=
  Crc32.finish (Crc32.feedAll Crc32.start bs)

/-- The check value of this CRC: the checksum of the ASCII digits 1 to 9. -/
example : crc32 [49, 50, 51, 52, 53, 54, 55, 56, 57] = 0xCBF43926 := by decide +kernel

end RecordCodec
