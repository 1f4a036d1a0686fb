/-!
# Byte strings and big-endian numerals

A byte string is a list of bytes, first byte first, so that appending, cutting and comparing are
the list operations and their lemmas. Numbers cross into byte strings in one way only: as a
base-256 numeral of fixed width, most significant digit first.

## Main definitions

* `bigEndian w n` — the `w` low base-256 digits of `n`.
* `ofBigEndian bs` — the number a byte string denotes.

Both are defined on `Nat`, not once for each word type, because the same laws then serve every
width: the width is exact (`length_bigEndian`), and the last digit can be split off on either side
(`bigEndian_succ`, `ofBigEndian_concat`). The round trips of the three word types follow from that.
-/

namespace RecordCodec

/-- A byte string, first byte first. -/
abbrev Bytes := List UInt8

/-- The `w` low base-256 digits of a number, most significant first. -/
def bigEndian : Nat → Nat → Bytes
  | 0, _ => []
  | w + 1, n => bigEndian w (n / 256) ++ [UInt8.ofNat n]

/-- The number whose base-256 digits are the given bytes, most significant first. -/
def ofBigEndian (bs : Bytes) : Nat :=
  bs.foldl (fun n b => 256 * n + b.toNat) 0

/-! ### Digit by digit -/

theorem bigEndian_succ (w n : Nat) :
    bigEndian (w + 1) n = bigEndian w (n / 256) ++ [UInt8.ofNat n] := rfl

@[simp] theorem length_bigEndian (w n : Nat) : (bigEndian w n).length = w := by
  induction w generalizing n with
  | zero => rfl
  | succ w ih => rw [bigEndian_succ, List.length_append, ih, List.length_singleton]

@[simp] theorem ofBigEndian_nil : ofBigEndian [] = 0 := rfl

theorem ofBigEndian_concat (bs : Bytes) (b : UInt8) :
    ofBigEndian (bs ++ [b]) = 256 * ofBigEndian bs + b.toNat := by
  rw [ofBigEndian, List.foldl_append]
  rfl

theorem ofBigEndian_bigEndian_succ (w n : Nat) :
    ofBigEndian (bigEndian (w + 1) n) = 256 * ofBigEndian (bigEndian w (n / 256)) + n % 256 := by
  rw [bigEndian_succ, ofBigEndian_concat]
  rfl

/-! ### Words -/

theorem ofBigEndian_bigEndian_four {n : Nat} (h : n < UInt32.size) :
    ofBigEndian (bigEndian 4 n) = n := by
  have hsize : UInt32.size = 4294967296 := rfl
  rw [ofBigEndian_bigEndian_succ 3, ofBigEndian_bigEndian_succ 2, ofBigEndian_bigEndian_succ 1,
    ofBigEndian_bigEndian_succ 0, bigEndian, ofBigEndian_nil]
  omega

theorem ofBigEndian_bigEndian_two {n : Nat} (h : n < UInt16.size) :
    ofBigEndian (bigEndian 2 n) = n := by
  have hsize : UInt16.size = 65536 := rfl
  rw [ofBigEndian_bigEndian_succ 1, ofBigEndian_bigEndian_succ 0, bigEndian, ofBigEndian_nil]
  omega

theorem ofBigEndian_bigEndian_one {n : Nat} (h : n < UInt8.size) :
    ofBigEndian (bigEndian 1 n) = n := by
  have hsize : UInt8.size = 256 := rfl
  rw [ofBigEndian_bigEndian_succ 0, bigEndian, ofBigEndian_nil]
  omega

theorem ofBigEndian_word (v : UInt32) : UInt32.ofNat (ofBigEndian (bigEndian 4 v.toNat)) = v := by
  rw [ofBigEndian_bigEndian_four v.toNat_lt, UInt32.ofNat_toNat]

theorem ofBigEndian_half (v : UInt16) : UInt16.ofNat (ofBigEndian (bigEndian 2 v.toNat)) = v := by
  rw [ofBigEndian_bigEndian_two v.toNat_lt, UInt16.ofNat_toNat]

theorem ofBigEndian_byte (v : UInt8) : UInt8.ofNat (ofBigEndian [v]) = v := by
  rw [show ofBigEndian [v] = 256 * 0 + v.toNat from rfl, Nat.mul_zero, Nat.zero_add,
    UInt8.ofNat_toNat]

/-- Bytes are the numeral of the number that they denote. -/
theorem bigEndian_ofBigEndian {w : Nat} {bs : Bytes} (h : bs.length = w) :
    bigEndian w (ofBigEndian bs) = bs := by
  induction w generalizing bs with
  | zero => exact (List.length_eq_zero_iff.mp h).symm
  | succ w ih =>
    have hne : bs ≠ [] := List.ne_nil_of_length_eq_add_one h
    obtain ⟨front, b, rfl⟩ : ∃ front b, bs = front ++ [b] :=
      ⟨bs.dropLast, bs.getLast hne, (List.dropLast_concat_getLast hne).symm⟩
    rw [List.length_append, List.length_singleton] at h
    have hb := b.toNat_lt
    have hfront : (256 * ofBigEndian front + b.toNat) / 256 = ofBigEndian front := by omega
    have hlast : UInt8.ofNat (256 * ofBigEndian front + b.toNat) = b := by
      refine UInt8.toNat_inj.mp ?_
      show (256 * ofBigEndian front + b.toNat) % 256 = b.toNat
      omega
    rw [ofBigEndian_concat, bigEndian_succ, hfront, hlast, ih (Nat.succ.inj h)]

/-- Four bytes denote a number that fits a word. -/
theorem ofBigEndian_lt_word {bs : Bytes} (h : bs.length = 4) : ofBigEndian bs < UInt32.size := by
  obtain ⟨a, b, c, d, rfl⟩ : ∃ a b c d, bs = [a, b, c, d] := by
    match bs, h with
    | [a, b, c, d], _ => exact ⟨a, b, c, d, rfl⟩
  have hvalue : ofBigEndian [a, b, c, d] =
      256 * (256 * (256 * (256 * 0 + a.toNat) + b.toNat) + c.toNat) + d.toNat := rfl
  have ha := a.toNat_lt
  have hb := b.toNat_lt
  have hc := c.toNat_lt
  have hd := d.toNat_lt
  have hsize : UInt32.size = 4294967296 := rfl
  omega

/-- Four bytes are read as a word without loss. -/
theorem bigEndian_ofBigEndian_word {bs : Bytes} (h : bs.length = 4) :
    bigEndian 4 (UInt32.ofNat (ofBigEndian bs)).toNat = bs := by
  rw [UInt32.toNat_ofNat_of_lt' (ofBigEndian_lt_word h), bigEndian_ofBigEndian h]

/-- Two bytes are read as half a word without loss. -/
theorem bigEndian_ofBigEndian_half {bs : Bytes} (h : bs.length = 2) :
    bigEndian 2 (UInt16.ofNat (ofBigEndian bs)).toNat = bs := by
  have hsmall : ofBigEndian bs < UInt16.size := by
    obtain ⟨a, b, rfl⟩ : ∃ a b, bs = [a, b] := by
      match bs, h with
      | [a, b], _ => exact ⟨a, b, rfl⟩
    have hvalue : ofBigEndian [a, b] = 256 * (256 * 0 + a.toNat) + b.toNat := rfl
    have ha := a.toNat_lt
    have hb := b.toNat_lt
    have hsize : UInt16.size = 65536 := rfl
    omega
  rw [UInt16.toNat_ofNat_of_lt' hsmall, bigEndian_ofBigEndian h]

/-- The numeral of a byte is the byte. -/
theorem bigEndian_byte (v : UInt8) : bigEndian 1 v.toNat = [v] := by
  rw [bigEndian_succ, UInt8.ofNat_toNat]
  rfl

/-- One byte is read without loss. -/
theorem bigEndian_ofBigEndian_byte {bs : Bytes} (h : bs.length = 1) :
    bigEndian 1 (UInt8.ofNat (ofBigEndian bs)).toNat = bs := by
  obtain ⟨b, rfl⟩ := List.length_eq_one_iff.mp h
  rw [ofBigEndian_byte, bigEndian_byte]

end RecordCodec
