import RecordCodec.Bytes

/-!
# Hexadecimal

Two digits a byte, high digit first. Writing uses lower-case digits only; reading takes both cases,
and a digit it does not know is reported with its place in the run of digits, because the caller
shows that place to the user.

The digits are ASCII bytes rather than characters: they are part of the byte strings a codec
writes and reads. `Hex.text` is the same run as a `String`, for messages.
-/

namespace RecordCodec

/-- A byte that is no hexadecimal digit, at a place in a run of digits. -/
structure BadDigit where
  byte : UInt8
  place : Nat
  deriving DecidableEq, Repr

namespace Hex

/-- The ASCII digit of a number below 16. -/
def digit (n : UInt8) : UInt8 :=
  if n < 10 then 48 + n else 87 + n

/-- The value of an ASCII digit in either case. -/
def value? (b : UInt8) : Option UInt8 :=
  if 48 ≤ b ∧ b ≤ 57 then some (b - 48)
  else if 97 ≤ b ∧ b ≤ 102 then some (b - 87)
  else if 65 ≤ b ∧ b ≤ 70 then some (b - 55)
  else none

/-- Each byte as two lower-case digits. -/
def encode (bs : Bytes) : Bytes :=
  bs.flatMap fun b => [digit (b / 16), digit (b % 16)]

/-- The value of the digit at a place, or the complaint about it. -/
def valueAt (b : UInt8) (place : Nat) : Except BadDigit UInt8 :=
  match value? b with
  | some n => .ok n
  | none => .error ⟨b, place⟩

/-- Reads digits in pairs, the first digit standing at place `place`. Of two bad digits the earlier
one is reported; a digit without a partner is left unread. -/
def decodeFrom (place : Nat) : Bytes → Except BadDigit Bytes
  | high :: low :: rest =>
    match valueAt high place with
    | .error fault => .error fault
    | .ok h =>
      match valueAt low (place + 1) with
      | .error fault => .error fault
      | .ok l => (decodeFrom (place + 2) rest).map fun bs => (16 * h + l) :: bs
  | _ => .ok []

/-- The bytes that a run of digits spells. -/
def decode (digits : Bytes) : Except BadDigit Bytes :=
  decodeFrom 0 digits

/-- The digits of a byte string as text. -/
def text (bs : Bytes) : String :=
  String.ofList ((encode bs).map fun d => Char.ofNat d.toNat)

/-! ### Reading inverts writing -/

@[simp] theorem length_encode (bs : Bytes) : (encode bs).length = 2 * bs.length := by
  induction bs with
  | nil => rfl
  | cons b bs ih =>
    rw [encode, List.flatMap_cons, List.length_append, ← encode, ih]
    simp only [List.length_cons, List.length_nil]
    omega

/-- Reading a digit inverts writing it. -/
theorem value?_digit (n : UInt8) (h : n < 16) : value? (digit n) = some n := by
  have all : ∀ m : Fin 16, value? (digit (UInt8.ofNat m)) = some (UInt8.ofNat m) := by decide
  have small : n.toNat < 16 := UInt8.lt_iff_toNat_lt.mp h
  have same := all ⟨n.toNat, small⟩
  rwa [UInt8.ofNat_toNat] at same

theorem div_add_mod (b : UInt8) : 16 * (b / 16) + b % 16 = b := by
  apply UInt8.toNat_inj.mp
  have := b.toNat_lt
  rw [UInt8.toNat_add, UInt8.toNat_mul, UInt8.toNat_div, UInt8.toNat_mod]
  show (16 * (b.toNat / 16) % 2 ^ 8 + b.toNat % 16) % 2 ^ 8 = b.toNat
  omega

theorem div_lt (b : UInt8) : b / 16 < 16 := by
  have := b.toNat_lt
  rw [UInt8.lt_iff_toNat_lt, UInt8.toNat_div]
  show b.toNat / 16 < 16
  omega

theorem mod_lt (b : UInt8) : b % 16 < 16 := by
  rw [UInt8.lt_iff_toNat_lt, UInt8.toNat_mod]
  exact Nat.mod_lt _ (by decide)

/-- Reading digits gives back the bytes that they were written from. -/
theorem decodeFrom_encode (place : Nat) (bs : Bytes) : decodeFrom place (encode bs) = .ok bs := by
  induction bs generalizing place with
  | nil => rfl
  | cons b bs ih =>
    have written : encode (b :: bs) = digit (b / 16) :: digit (b % 16) :: encode bs := rfl
    simp only [written, decodeFrom, valueAt, value?_digit _ (div_lt b), value?_digit _ (mod_lt b),
      ih, Except.map, div_add_mod]

@[simp] theorem decode_encode (bs : Bytes) : decode (encode bs) = .ok bs :=
  decodeFrom_encode 0 bs

end Hex

end RecordCodec
