import RecordCodec.Text.Hex

/-!
# Byte strings that part ways

Two byte strings can be in order in two ways: they part ways at a place that both have, or one of
them ends where the other goes on. Only the first of the two survives when something is appended to
them. So to sort byte strings that are put together from parts, more has to be known of the parts
than their order: that they part ways, or else are the same (`Sorts`).

## Main definitions

* `Below x y` — `x` and `y` part ways, and `x` has the smaller byte there.
* `Sorts o x y` — `x` and `y` part ways as the ordering `o` says, or are the same.

## Main results

* `Sorts.append` — parts one after another are sorted by the first that are not the same.
* `sorts_of_length_eq` — byte strings of one length.
* `sorts_bigEndian` — numerals are sorted as their numbers.
* `Sorts.hex` — digits are sorted as the bytes that they stand for.
-/

namespace RecordCodec

/-! ### Below -/

/-- The first byte string has the smaller byte at the first place where the two are not the same. -/
inductive Below : Bytes → Bytes → Prop where
  | head {a b : UInt8} (h : a < b) (x y : Bytes) : Below (a :: x) (b :: y)
  | tail (a : UInt8) {x y : Bytes} (h : Below x y) : Below (a :: x) (a :: y)

namespace Below

variable {x y : Bytes}

theorem append (h : Below x y) (u v : Bytes) : Below (x ++ u) (y ++ v) := by
  induction h with
  | head h x y => exact head h (x ++ u) (y ++ v)
  | tail a _ ih => exact tail a ih

theorem prepend (h : Below x y) (front : Bytes) : Below (front ++ x) (front ++ y) := by
  induction front with
  | nil => exact h
  | cons a front ih => exact tail a ih

theorem lt (h : Below x y) : x < y := by
  induction h with
  | head h _ _ => exact List.Lex.rel h
  | tail a _ ih => exact List.Lex.cons ih

/-- Byte strings that part ways are not both the beginning of a third. -/
theorem not_isPrefix (h : Below x y) {z : Bytes} (hx : x <+: z) (hy : y <+: z) : False := by
  induction h generalizing z with
  | head h x y =>
    cases z with
    | nil => exact List.cons_ne_nil _ _ (List.prefix_nil.mp hx)
    | cons c z =>
      obtain ⟨rfl, -⟩ := List.cons_prefix_cons.mp hx
      obtain ⟨rfl, -⟩ := List.cons_prefix_cons.mp hy
      exact UInt8.lt_irrefl _ h
  | tail a _ ih =>
    cases z with
    | nil => exact List.cons_ne_nil _ _ (List.prefix_nil.mp hx)
    | cons c z =>
      exact ih (List.cons_prefix_cons.mp hx).2 (List.cons_prefix_cons.mp hy).2

theorem ne (h : Below x y) : x ≠ y := by
  rintro rfl
  exact h.not_isPrefix (List.prefix_refl x) (List.prefix_refl x)

end Below

/-! ### Sorted -/

/-- The byte strings part ways as the ordering says, and are the same where it says equal. -/
def Sorts : Ordering → Bytes → Bytes → Prop
  | .lt, x, y => Below x y
  | .eq, x, y => x = y
  | .gt, x, y => Below y x

namespace Sorts

variable {o o' : Ordering} {x y u v : Bytes}

/-- **Parts one after another.** The second parts matter where the first ones are the same. -/
theorem append (h : Sorts o x y) (h' : o = .eq → Sorts o' u v) :
    Sorts (o.then o') (x ++ u) (y ++ v) := by
  cases o with
  | lt => exact Below.append h u v
  | gt => exact Below.append h v u
  | eq =>
    obtain rfl : x = y := h
    have hrest := h' rfl
    cases o' with
    | lt => exact Below.prepend hrest x
    | gt => exact Below.prepend hrest x
    | eq => exact congrArg (x ++ ·) hrest

theorem append_right (h : Sorts o x y) (u : Bytes) : Sorts o (x ++ u) (y ++ u) := by
  have hsame : Sorts .eq u u := rfl
  have happend := h.append fun _ => hsame
  rwa [Ordering.then_eq] at happend

theorem eq_iff (h : Sorts o x y) : x = y ↔ o = .eq := by
  cases o with
  | lt =>
    constructor
    · intro hxy
      exact absurd hxy (Below.ne h)
    · rintro ⟨⟩
  | eq => exact iff_of_true h rfl
  | gt =>
    constructor
    · intro hxy
      exact absurd hxy.symm (Below.ne h)
    · rintro ⟨⟩

theorem lt_iff (h : Sorts o x y) : x < y ↔ o = .lt := by
  cases o with
  | lt => exact iff_of_true (Below.lt h) rfl
  | eq =>
    obtain rfl : x = y := h
    constructor
    · intro hlt
      exact absurd hlt (List.lt_irrefl x)
    · rintro ⟨⟩
  | gt =>
    constructor
    · intro hlt
      exact absurd hlt (List.lt_asymm (Below.lt h))
    · rintro ⟨⟩

/-- Neither byte string is the beginning of the other, unless they are the same. -/
theorem not_isPrefix (h : Sorts o x y) (hne : x ≠ y) : ¬x <+: y ∧ ¬y <+: x := by
  cases o with
  | lt =>
    constructor
    · intro hxy
      exact Below.not_isPrefix h hxy (List.prefix_refl y)
    · intro hyx
      exact Below.not_isPrefix h (List.prefix_refl x) hyx
  | eq => exact absurd h hne
  | gt =>
    constructor
    · intro hxy
      exact Below.not_isPrefix h (List.prefix_refl y) hxy
    · intro hyx
      exact Below.not_isPrefix h hyx (List.prefix_refl x)

end Sorts

/-! ### Bytes -/

theorem sorts_byte (a b : UInt8) : Sorts (compare a b) [a] [b] := by
  have hcompare : compare a b = compareOfLessAndEq a b := rfl
  rw [hcompare, compareOfLessAndEq]
  by_cases hlt : a < b
  · rw [if_pos hlt]
    exact .head hlt [] []
  · rw [if_neg hlt]
    by_cases heq : a = b
    · rw [if_pos heq]
      exact congrArg (fun c => [c]) heq
    · rw [if_neg heq]
      have hgt : b < a := UInt8.lt_of_le_of_ne (UInt8.not_lt.mp hlt) (Ne.symm heq)
      exact .head hgt [] []

/-- **Byte strings of one length** part ways, or are the same. -/
theorem sorts_of_length_eq {x y : Bytes} (h : x.length = y.length) : Sorts (compare x y) x y := by
  induction x generalizing y with
  | nil =>
    obtain rfl := List.length_eq_zero_iff.mp h.symm
    exact rfl
  | cons a x ih =>
    cases y with
    | nil => exact absurd h (Nat.succ_ne_zero _)
    | cons b y =>
      rw [List.compare_cons_cons]
      exact (sorts_byte a b).append fun _ => ih (Nat.succ.inj h)

/-! ### Numbers -/

/-- What is below where a number is smaller is sorted as the numbers. -/
theorem sorts_compare {f : Nat → Bytes} {n m : Nat} (hlt : n < m → Below (f n) (f m))
    (hgt : m < n → Below (f m) (f n)) : Sorts (compare n m) (f n) (f m) := by
  rcases Nat.lt_trichotomy n m with h | h | h
  · rw [Nat.compare_eq_lt.mpr h]
    exact hlt h
  · subst h
    rw [Nat.compare_eq_eq.mpr rfl]
    exact rfl
  · rw [Nat.compare_eq_gt.mpr h]
    exact hgt h

/-- Of two numerals that denote their numbers, that of the smaller number is below. -/
theorem below_bigEndian {w n m : Nat} (hn : ofBigEndian (bigEndian w n) = n)
    (hm : ofBigEndian (bigEndian w m) = m) (h : n < m) :
    Below (bigEndian w n) (bigEndian w m) := by
  induction w generalizing n m with
  | zero =>
    rw [bigEndian, ofBigEndian_nil] at hn hm
    omega
  | succ w ih =>
    rw [ofBigEndian_bigEndian_succ] at hn hm
    rw [bigEndian_succ, bigEndian_succ]
    rcases Nat.lt_or_ge (n / 256) (m / 256) with hhigh | hhigh
    · exact (ih (by omega) (by omega) hhigh).append _ _
    · have hsame : n / 256 = m / 256 := by omega
      have hlow : UInt8.ofNat n < UInt8.ofNat m := by
        rw [UInt8.lt_iff_toNat_lt]
        show n % 256 < m % 256
        omega
      rw [hsame]
      exact (Below.head hlow [] []).prepend _

/-- **Numerals are sorted as their numbers.** -/
theorem sorts_bigEndian {w n m : Nat} (hn : ofBigEndian (bigEndian w n) = n)
    (hm : ofBigEndian (bigEndian w m) = m) :
    Sorts (compare n m) (bigEndian w n) (bigEndian w m) :=
  sorts_compare (below_bigEndian hn hm) (below_bigEndian hm hn)

/-! ### Digits -/

theorem Hex.digit_lt {n m : UInt8} (h : n < m) (hm : m < 16) : Hex.digit n < Hex.digit m := by
  have all : ∀ i j : Fin 16, i < j →
      Hex.digit (UInt8.ofNat i) < Hex.digit (UInt8.ofNat j) := by decide
  have hsmall : m.toNat < 16 := UInt8.lt_iff_toNat_lt.mp hm
  have horder : n.toNat < m.toNat := UInt8.lt_iff_toNat_lt.mp h
  have hdigits := all ⟨n.toNat, Nat.lt_trans horder hsmall⟩ ⟨m.toNat, hsmall⟩ horder
  rwa [UInt8.ofNat_toNat, UInt8.ofNat_toNat] at hdigits

/-- The digits of a smaller byte are below: the high ones differ, or else the low ones. -/
theorem Below.hex_byte {a b : UInt8} (h : a < b) :
    Below [Hex.digit (a / 16), Hex.digit (a % 16)] [Hex.digit (b / 16), Hex.digit (b % 16)] := by
  have horder : a.toNat < b.toNat := UInt8.lt_iff_toNat_lt.mp h
  have ha : (a / 16).toNat = a.toNat / 16 := UInt8.toNat_div a 16
  have hb : (b / 16).toNat = b.toNat / 16 := UInt8.toNat_div b 16
  rcases Nat.lt_or_ge (a.toNat / 16) (b.toNat / 16) with hhigh | hhigh
  · have hdiv : a / 16 < b / 16 := UInt8.lt_iff_toNat_lt.mpr (by omega)
    exact .head (Hex.digit_lt hdiv (Hex.div_lt b)) _ _
  · have hsame : a / 16 = b / 16 := UInt8.toNat_inj.mp (by omega)
    have hmod : a % 16 < b % 16 := by
      rw [UInt8.lt_iff_toNat_lt, UInt8.toNat_mod, UInt8.toNat_mod]
      show a.toNat % 16 < b.toNat % 16
      omega
    rw [hsame]
    exact .tail _ (.head (Hex.digit_lt hmod (Hex.mod_lt b)) _ _)

theorem Below.hex {x y : Bytes} (h : Below x y) : Below (Hex.encode x) (Hex.encode y) := by
  induction h with
  | head h x y => exact (Below.hex_byte h).append (Hex.encode x) (Hex.encode y)
  | tail a _ ih => exact ih.prepend [Hex.digit (a / 16), Hex.digit (a % 16)]

/-- **Digits are sorted as the bytes** that they stand for. -/
theorem Sorts.hex {o : Ordering} {x y : Bytes} (h : Sorts o x y) :
    Sorts o (Hex.encode x) (Hex.encode y) := by
  cases o with
  | lt => exact Below.hex h
  | eq => exact congrArg Hex.encode h
  | gt => exact Below.hex h

end RecordCodec
