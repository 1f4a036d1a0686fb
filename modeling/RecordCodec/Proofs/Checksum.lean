import RecordCodec.Checksum

/-!
# What a checksum detects

The register of a CRC moves by an injective linear map, bit by bit. From that alone it follows that
bytes which follow a difference never cancel it. That the difference itself is not lost is a matter
of how long it is: bytes go in at the low end of the register and have 32 bits to move through, so
up to four bytes in a row go in side by side. To feed them is to put them into the register as one
word and to move on.

A longer difference can cancel itself, of course: there are more byte strings than checksums.

## Main definitions

* `Crc32.steps` — several bit steps.
* `Crc32.word` — bytes side by side, first byte lowest.

## Main results

* `Crc32.step_xor`, `Crc32.step_injective` — the bit step is linear, and loses nothing.
* `Crc32.feedAll_injective` — nor do byte strings that are fed.
* `Crc32.feedAll_eq_steps` — four bytes, or fewer, go in as one word.
* `crc32_window_injective` — a checksum tells byte strings apart that differ in a window of four
  bytes.
-/

namespace RecordCodec

namespace Crc32

/-! ### One bit -/

theorem toNat_half (c : UInt32) : (c >>> 1).toNat = c.toNat / 2 := by
  rw [UInt32.toNat_shiftRight]
  exact Nat.shiftRight_succ _ 0

theorem and_one_eq_one_iff {c : UInt32} : c &&& 1 = 1 ↔ c.toNat % 2 = 1 := by
  rw [← UInt32.toNat_inj, UInt32.toNat_and]
  exact iff_of_eq (congrArg (· = 1) (Nat.and_one_is_mod _))

theorem step_of_odd {c : UInt32} (h : c.toNat % 2 = 1) : step c = (c >>> 1) ^^^ 0xEDB88320 :=
  if_pos (and_one_eq_one_iff.mpr h)

theorem step_of_even {c : UInt32} (h : c.toNat % 2 = 0) : step c = c >>> 1 := by
  refine if_neg ?_
  intro hodd
  have hone := and_one_eq_one_iff.mp hodd
  omega

/-- The parity of an exclusive or. -/
theorem toNat_xor_mod_two (a b : UInt32) :
    (a ^^^ b).toNat % 2 = (a.toNat + b.toNat) % 2 := by
  have hxor : (a ^^^ b).toNat % 2 = 1 ↔ ¬(a.toNat % 2 = 1 ↔ b.toNat % 2 = 1) := by
    rw [UInt32.toNat_xor]
    exact Nat.xor_mod_two_eq_one
  omega

/-- **The bit step is linear.** -/
theorem step_xor (a b : UInt32) : step (a ^^^ b) = step a ^^^ step b := by
  have hparity := toNat_xor_mod_two a b
  rcases Nat.mod_two_eq_zero_or_one a.toNat with ha | ha <;>
    rcases Nat.mod_two_eq_zero_or_one b.toNat with hb | hb
  · rw [step_of_even ha, step_of_even hb, step_of_even (by omega), UInt32.shiftRight_xor]
  · rw [step_of_even ha, step_of_odd hb, step_of_odd (by omega), UInt32.shiftRight_xor,
      UInt32.xor_assoc]
  · rw [step_of_odd ha, step_of_even hb, step_of_odd (by omega), UInt32.shiftRight_xor]
    ac_rfl
  · have hcancel : ∀ p : UInt32, (a >>> 1 ^^^ p) ^^^ (b >>> 1 ^^^ p) =
        (a >>> 1 ^^^ b >>> 1) ^^^ (p ^^^ p) := by
      intro p
      ac_rfl
    rw [step_of_odd ha, step_of_odd hb, step_of_even (by omega), UInt32.shiftRight_xor, hcancel,
      UInt32.xor_self, UInt32.xor_zero]

/-- Only the zero register moves to zero: an odd one gets the highest bit. -/
theorem eq_zero_of_step_eq_zero {c : UInt32} (h : step c = 0) : c = 0 := by
  have hhalf := toNat_half c
  rcases Nat.mod_two_eq_zero_or_one c.toNat with hc | hc
  · rw [step_of_even hc] at h
    rw [h] at hhalf
    refine UInt32.toNat_inj.mp ?_
    rw [UInt32.toNat_zero] at hhalf ⊢
    omega
  · rw [step_of_odd hc, UInt32.xor_eq_zero_iff] at h
    have hbound := c.toNat_lt
    rw [h] at hhalf
    have hhigh : (0xEDB88320 : UInt32).toNat = 3988292384 := rfl
    omega

/-- **The bit step loses nothing.** -/
theorem step_injective {a b : UInt32} (h : step a = step b) : a = b := by
  have hzero : step (a ^^^ b) = 0 := by rw [step_xor, h, UInt32.xor_self]
  exact UInt32.xor_eq_zero_iff.mp (eq_zero_of_step_eq_zero hzero)

/-! ### Several bits -/

/-- Several bit steps. -/
def steps : Nat → UInt32 → UInt32
  | 0, c => c
  | n + 1, c => steps n (step c)

theorem steps_xor (n : Nat) (a b : UInt32) : steps n (a ^^^ b) = steps n a ^^^ steps n b := by
  induction n generalizing a b with
  | zero => rfl
  | succ n ih => rw [steps, step_xor, ih, steps, steps]

theorem steps_injective {n : Nat} {a b : UInt32} (h : steps n a = steps n b) : a = b := by
  induction n generalizing a b with
  | zero => exact h
  | succ n ih => exact step_injective (ih h)

theorem steps_add (n m : Nat) (c : UInt32) : steps (n + m) c = steps m (steps n c) := by
  induction n generalizing c with
  | zero => rw [Nat.zero_add, steps]
  | succ n ih => rw [Nat.succ_add, steps, ih, steps]

/-- As long as the low bits are zeros, the register only moves. -/
theorem steps_of_shifted {n : Nat} {c d : UInt32} (h : c.toNat = d.toNat <<< n) :
    steps n c = d := by
  induction n generalizing c with
  | zero => exact UInt32.toNat_inj.mp h
  | succ n ih =>
    rw [Nat.shiftLeft_succ] at h
    refine ih ?_
    rw [step_of_even (by omega), toNat_half]
    omega

/-! ### Bytes -/

theorem feed_eq_steps (c : UInt32) (b : UInt8) : feed c b = steps 8 (c ^^^ b.toUInt32) := rfl

theorem feedAll_cons (c : UInt32) (b : UInt8) (bs : Bytes) :
    feedAll c (b :: bs) = feedAll (feed c b) bs := rfl

/-- **Bytes that are fed cancel no difference.** -/
theorem feedAll_injective {bs : Bytes} {c d : UInt32} (h : feedAll c bs = feedAll d bs) :
    c = d := by
  induction bs generalizing c d with
  | nil => exact h
  | cons b bs ih =>
    rw [feedAll_cons, feedAll_cons, feed_eq_steps, feed_eq_steps] at h
    exact (UInt32.xor_left_inj b.toUInt32).mp (steps_injective (ih h))

/-! ### Words -/

/-- Bytes side by side, first byte lowest. What does not fit into 32 bits is lost. -/
def word : Bytes → UInt32
  | [] => 0
  | b :: bs => b.toUInt32 ^^^ (word bs <<< 8)

theorem toNat_shiftLeft_eight {c : UInt32} (h : c.toNat < 16777216) :
    (c <<< 8).toNat = c.toNat <<< 8 := by
  have hshift : c.toNat <<< 8 = c.toNat * 256 := Nat.shiftLeft_eq _ _
  rw [UInt32.toNat_shiftLeft]
  show c.toNat <<< 8 % 4294967296 = c.toNat <<< 8
  exact Nat.mod_eq_of_lt (by omega)

theorem toUInt8_shiftLeft_eight (c : UInt32) : (c <<< 8).toUInt8 = 0 := by
  have hshift : c.toNat <<< 8 = c.toNat * 256 := Nat.shiftLeft_eq _ _
  refine UInt8.toNat_inj.mp ?_
  rw [UInt32.toNat_toUInt8, UInt32.toNat_shiftLeft]
  show c.toNat <<< 8 % 4294967296 % 256 = 0
  omega

theorem toNat_word_cons_lt {b : UInt8} {bs : Bytes} {n : Nat} (hn : n ≤ 24)
    (h : (word bs).toNat < 1 <<< n) : (word (b :: bs)).toNat < 1 <<< (n + 8) := by
  have hgrow : 1 <<< (n + 8) = (1 <<< n) * 256 := by
    rw [Nat.one_shiftLeft, Nat.one_shiftLeft, Nat.pow_add]
  have hlimit : 1 <<< n ≤ 16777216 := by
    rw [Nat.one_shiftLeft]
    exact Nat.pow_le_pow_right (by decide) hn
  have hshift : (word bs).toNat <<< 8 = (word bs).toNat * 256 := Nat.shiftLeft_eq _ _
  have hlow : b.toUInt32.toNat < 1 <<< (n + 8) := by
    have hb := b.toNat_lt
    rw [UInt8.toNat_toUInt32]
    omega
  have hhigh : (word bs <<< 8).toNat < 1 <<< (n + 8) := by
    rw [toNat_shiftLeft_eight (by omega)]
    omega
  rw [Nat.one_shiftLeft] at hlow hhigh ⊢
  rw [word, UInt32.toNat_xor]
  exact Nat.xor_lt_two_pow hlow hhigh

theorem toNat_word_lt {bs : Bytes} (h : bs.length ≤ 4) :
    (word bs).toNat < 1 <<< (8 * bs.length) := by
  induction bs with
  | nil => decide
  | cons b bs ih =>
    rw [List.length_cons] at h
    rw [List.length_cons, Nat.mul_succ]
    exact toNat_word_cons_lt (by omega) (ih (by omega))

/-- Up to three bytes have room for another below them. -/
theorem steps_shifted_word {bs : Bytes} (h : bs.length ≤ 3) :
    steps 8 (word bs <<< 8) = word bs := by
  have hlimit : 1 <<< (8 * bs.length) ≤ 16777216 := by
    rw [Nat.one_shiftLeft]
    exact Nat.pow_le_pow_right (by decide) (Nat.mul_le_mul_left 8 h)
  have hword := toNat_word_lt (Nat.le_succ_of_le h)
  exact steps_of_shifted (toNat_shiftLeft_eight (Nat.lt_of_lt_of_le hword hlimit))

/-- **A few bytes go in as one word.** -/
theorem feedAll_eq_steps {bs : Bytes} (h : bs.length ≤ 4) (c : UInt32) :
    feedAll c bs = steps (8 * bs.length) (c ^^^ word bs) := by
  induction bs generalizing c with
  | nil => rw [word, UInt32.xor_zero, feedAll_nil, List.length_nil, Nat.mul_zero, steps]
  | cons b bs ih =>
    rw [List.length_cons] at h
    calc feedAll c (b :: bs)
        = steps (8 * bs.length) (steps 8 (c ^^^ b.toUInt32) ^^^ word bs) := by
          rw [feedAll_cons, ih (by omega), feed_eq_steps]
      _ = steps (8 * bs.length) (steps 8 (c ^^^ b.toUInt32) ^^^ steps 8 (word bs <<< 8)) := by
          rw [steps_shifted_word (by omega)]
      _ = steps (8 * bs.length) (steps 8 (c ^^^ word (b :: bs))) := by
          rw [← steps_xor, UInt32.xor_assoc, word]
      _ = steps (8 * (b :: bs).length) (c ^^^ word (b :: bs)) := by
          rw [← steps_add, List.length_cons, Nat.mul_succ, Nat.add_comm]

theorem word_injective {bs cs : Bytes} (hlen : bs.length = cs.length) (h : bs.length ≤ 4)
    (hword : word bs = word cs) : bs = cs := by
  induction bs generalizing cs with
  | nil => exact (List.length_eq_zero_iff.mp hlen.symm).symm
  | cons b bs ih =>
    cases cs with
    | nil => exact absurd hlen (Nat.succ_ne_zero _)
    | cons c cs =>
      rw [List.length_cons, List.length_cons] at *
      obtain rfl : b = c := by
        have hlow := congrArg UInt32.toUInt8 hword
        rwa [word, word, UInt32.toUInt8_xor, UInt32.toUInt8_xor, UInt8.toUInt8_toUInt32,
          UInt8.toUInt8_toUInt32, toUInt8_shiftLeft_eight, toUInt8_shiftLeft_eight,
          UInt8.xor_zero, UInt8.xor_zero] at hlow
      have hhigh : word bs <<< 8 = word cs <<< 8 := (UInt32.xor_right_inj _).mp hword
      have hrest : word bs = word cs := by
        rw [← steps_shifted_word (by omega), hhigh, steps_shifted_word (by omega)]
      rw [ih (by omega) (by omega) hrest]

/-- Bytes in a window of four are told apart by the register. -/
theorem feedAll_window_injective {bs cs : Bytes} {c : UInt32} (hlen : bs.length = cs.length)
    (h : bs.length ≤ 4) (hfeed : feedAll c bs = feedAll c cs) : bs = cs := by
  rw [feedAll_eq_steps h, feedAll_eq_steps (hlen ▸ h), hlen] at hfeed
  exact word_injective hlen h ((UInt32.xor_right_inj c).mp (steps_injective hfeed))

end Crc32

/-- **A checksum tells byte strings apart that differ in a window of four bytes**, whatever stands
around the window. -/
theorem crc32_window_injective {before bs cs after : Bytes} (hlen : bs.length = cs.length)
    (h : bs.length ≤ 4) (hsum : crc32 (before ++ bs ++ after) = crc32 (before ++ cs ++ after)) :
    bs = cs := by
  have hregister := (UInt32.xor_left_inj _).mp hsum
  rw [Crc32.feedAll_append, Crc32.feedAll_append, Crc32.feedAll_append,
    Crc32.feedAll_append] at hregister
  exact Crc32.feedAll_window_injective hlen h (Crc32.feedAll_injective hregister)

end RecordCodec
