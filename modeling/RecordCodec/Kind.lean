import RecordCodec.ByteBlock
import RecordCodec.Traversal

/-!
# Kinds of leaf fields

A codec knows seven kinds of value: three widths of unsigned integer, truth values, blocks of fixed
length, blocks of variable length, and texts. `Kind.Value` is the type of a field's value by kind,
so one visit function of a codec serves all kinds, and reading a field cannot change its kind.

Signed integers are not a matter of codecs: a signed field travels as the unsigned integer with the
same two's complement bits (`Signed.toCarrier`, `Signed.ofCarrier`).
-/

namespace RecordCodec

/-- The kinds of value that a codec handles itself. -/
inductive Kind where
  | u32
  | u16
  | u8
  | bool
  /-- A block whose length is fixed by the record. -/
  | fixed
  /-- A block of variable length; the flags say how it is delimited and who owns it. -/
  | block (flags : Mask)
  | text
  deriving DecidableEq, Repr

namespace Kind

/-- The values of a kind. -/
@[reducible] def Value : Kind → Type
  | u32 => UInt32
  | u16 => UInt16
  | u8 => UInt8
  | bool => Bool
  | fixed => Bytes
  | block _ => ByteBlock
  | text => String

/-- The value before anything is decoded into it. A fixed block keeps its length. -/
def blank : (k : Kind) → k.Value → k.Value
  | u32, _ => 0
  | u16, _ => 0
  | u8, _ => 0
  | bool, _ => false
  | fixed, bs => List.replicate bs.length 0
  | block _, _ => ByteBlock.empty
  | text, _ => ""

instance : (k : Kind) → DecidableEq k.Value
  | u32 => inferInstanceAs (DecidableEq UInt32)
  | u16 => inferInstanceAs (DecidableEq UInt16)
  | u8 => inferInstanceAs (DecidableEq UInt8)
  | bool => inferInstanceAs (DecidableEq Bool)
  | fixed => inferInstanceAs (DecidableEq Bytes)
  | block _ => inferInstanceAs (DecidableEq ByteBlock)
  | text => inferInstanceAs (DecidableEq String)

end Kind

/-- The widths of signed integer. -/
inductive Signed where
  | i32
  | i16
  | i8
  deriving DecidableEq, Repr

namespace Signed

/-- The values of a signed width. -/
@[reducible] def Value : Signed → Type
  | i32 => Int32
  | i16 => Int16
  | i8 => Int8

/-- The unsigned kind that a signed field travels as. -/
@[reducible] def carrier : Signed → Kind
  | i32 => .u32
  | i16 => .u16
  | i8 => .u8

/-- The unsigned integer with the same bits. -/
def toCarrier : (w : Signed) → w.Value → w.carrier.Value
  | i32, v => v.toUInt32
  | i16, v => v.toUInt16
  | i8, v => v.toUInt8

/-- The signed integer with the same bits. -/
def ofCarrier : (w : Signed) → w.carrier.Value → w.Value
  | i32, u => u.toInt32
  | i16, u => u.toInt16
  | i8, u => u.toInt8

/-- The value before anything is decoded into it. -/
def zero : (w : Signed) → w.Value
  | i32 => 0
  | i16 => 0
  | i8 => 0

@[simp] theorem ofCarrier_toCarrier (w : Signed) (v : w.Value) :
    w.ofCarrier (w.toCarrier v) = v := by
  cases w <;> rfl

@[simp] theorem toCarrier_ofCarrier (w : Signed) (u : w.carrier.Value) :
    w.toCarrier (w.ofCarrier u) = u := by
  cases w <;> rfl

end Signed

end RecordCodec
