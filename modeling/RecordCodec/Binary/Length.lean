import RecordCodec.Error

/-!
# Length fields

A block or text of variable length is announced by a 32-bit length. A block too long for that has
no serial form in any codec: it is refused, never cut short.
-/

namespace RecordCodec

/-- The length field of a block of `n` bytes. -/
def lengthField (field : String) (n : Nat) : Except Error UInt32 :=
  if n < UInt32.size then .ok (UInt32.ofNat n) else .error (.lengthOverflow field n)

/-- The number of bytes of a length field, and of a checksum trailer. -/
def wordSize : Nat := 4

theorem lengthField_eq_ok_iff {field : String} {n : Nat} {w : UInt32} :
    lengthField field n = .ok w ↔ n < UInt32.size ∧ UInt32.ofNat n = w := by
  rw [lengthField]
  by_cases h : n < UInt32.size
  · rw [if_pos h, Except.ok.injEq]
    exact ⟨fun e => ⟨h, e⟩, fun e => e.2⟩
  · rw [if_neg h]
    exact ⟨nofun, fun e => absurd e.1 h⟩

end RecordCodec
