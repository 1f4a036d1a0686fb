/-!
# Ranges of type codes

Type codes are 32-bit numbers. A family of types owns all codes from a lowest to a highest one; a
single type owns one code. The number of codes in a range is counted without wrapping, since the
range of all codes has one more than a code can say.
-/

namespace RecordCodec

/-- The codes from `low` to `high`, both included. -/
structure CodeRange where
  low : UInt32
  high : UInt32
  deriving DecidableEq, Repr

namespace CodeRange

/-- The range of one code. -/
def single (code : UInt32) : CodeRange :=
  ⟨code, code⟩

/-- The code is in the range. -/
def contains (r : CodeRange) (code : UInt32) : Bool :=
  r.low ≤ code && code ≤ r.high

/-- The number of codes in a range that is not empty. -/
def width (r : CodeRange) : Nat :=
  r.high.toNat - r.low.toNat + 1

end CodeRange

end RecordCodec
