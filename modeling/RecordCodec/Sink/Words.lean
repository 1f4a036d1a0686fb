import RecordCodec.Sink

/-!
# Slices counted in words

A sink lies in memory, where offsets and lengths are words of 64 bits, and the sum of two words may
wrap around. `Sink.slice` counts exactly. Here is the same slice as words give it: its end is a sum
that may have wrapped around, and the range from the offset up to there is one only if it does not
end before it starts, and not past the last byte.

Both refuse the same slices. A sum that wrapped around is less than the offset, so what it ends
would end before it starts.

## Main definitions

* `range?` — the bytes between two places.
* `Sink.wordSlice?` — the slice of a sink, with its end counted in words.

## Main results

* `Sink.wordSlice?_eq` — the slice is the one that is counted exactly.
-/

namespace RecordCodec

/-- The bytes from `start` up to `stop`, if there are. -/
def range? (bs : Bytes) (start stop : UInt64) : Option Bytes :=
  if start ≤ stop ∧ stop.toNat ≤ bs.length then some ((bs.take stop.toNat).drop start.toNat)
  else none

/-! ### Sums of words -/

theorem toNat_add_of_lt {a b : UInt64} (h : a.toNat + b.toNat < UInt64.size) :
    (a + b).toNat = a.toNat + b.toNat := by
  rw [UInt64.toNat_add]
  exact Nat.mod_eq_of_lt h

/-- A sum that wraps around is less than its parts. -/
theorem toNat_add_lt {a b : UInt64} (h : UInt64.size ≤ a.toNat + b.toNat) :
    (a + b).toNat < a.toNat := by
  have hsize : UInt64.size = 18446744073709551616 := rfl
  have hsum := UInt64.toNat_add a b
  have hb := b.toNat_lt
  omega

variable {bs : Bytes} {offset n : UInt64}

theorem range?_add_of_le (hmemory : bs.length < UInt64.size)
    (h : offset.toNat + n.toNat ≤ bs.length) :
    range? bs offset (offset + n) = some ((bs.drop offset.toNat).take n.toNat) := by
  have hexact : (offset + n).toNat = offset.toNat + n.toNat :=
    toNat_add_of_lt (Nat.lt_of_le_of_lt h hmemory)
  have hstart : offset ≤ offset + n := by
    rw [UInt64.le_iff_toNat_le, hexact]
    exact Nat.le_add_right _ _
  rw [range?, hexact, if_pos ⟨hstart, h⟩, List.drop_take, Nat.add_sub_cancel_left]

theorem range?_add_of_lt (h : bs.length < offset.toNat + n.toNat) :
    range? bs offset (offset + n) = none := by
  rw [range?, if_neg]
  rintro ⟨hstart, hstop⟩
  rw [UInt64.le_iff_toNat_le] at hstart
  by_cases hwraps : UInt64.size ≤ offset.toNat + n.toNat
  · have hless := toNat_add_lt hwraps
    omega
  · have hexact : (offset + n).toNat = offset.toNat + n.toNat :=
      toNat_add_of_lt (Nat.not_le.mp hwraps)
    omega

namespace Sink

/-- The `n` committed bytes at `offset`, with the end of the slice counted in words. A sink over
storage asks first whether the end is a committed one. -/
def wordSlice? (offset n : UInt64) : Sink → Option Bytes
  | .fixed storage length =>
    if (offset + n).toNat ≤ length then range? storage offset (offset + n) else none
  | .growable bs _ => range? bs offset (offset + n)

variable {s : Sink}

theorem wordSlice?_of_le (hin : s.length ≤ s.storage.length)
    (hmemory : s.storage.length < UInt64.size) (h : offset.toNat + n.toNat ≤ s.length) :
    s.wordSlice? offset n = some ((s.storage.drop offset.toNat).take n.toNat) := by
  have hrange := range?_add_of_le hmemory (Nat.le_trans h hin)
  cases s with
  | fixed storage length =>
    have hexact : (offset + n).toNat = offset.toNat + n.toNat :=
      toNat_add_of_lt (Nat.lt_of_le_of_lt (Nat.le_trans h hin) hmemory)
    exact (if_pos (Nat.le_trans (Nat.le_of_eq hexact) h)).trans hrange
  | growable bs limit => exact hrange

theorem wordSlice?_of_lt (hmemory : s.storage.length < UInt64.size)
    (h : s.length < offset.toNat + n.toNat) : s.wordSlice? offset n = none := by
  cases s with
  | fixed storage length =>
    have hlength : length < offset.toNat + n.toNat := h
    rw [wordSlice?]
    by_cases hstop : (offset + n).toNat ≤ length
    · -- the sum is not the exact one, so it wrapped around
      have hwraps : UInt64.size ≤ offset.toNat + n.toNat := by
        refine Nat.not_lt.mp fun hless => ?_
        have hexact : (offset + n).toNat = offset.toNat + n.toNat :=
          toNat_add_of_lt hless
        omega
      rw [if_pos hstop]
      exact range?_add_of_lt (Nat.lt_of_lt_of_le hmemory hwraps)
    · rw [if_neg hstop]
  | growable bs limit => exact range?_add_of_lt h

/-- **Words give the slice that is counted exactly**, and refuse what it refuses. -/
theorem wordSlice?_eq (hin : s.length ≤ s.storage.length)
    (hmemory : s.storage.length < UInt64.size) (offset n : UInt64) :
    s.wordSlice? offset n =
      if offset.toNat + n.toNat ≤ s.length then
        some ((s.storage.drop offset.toNat).take n.toNat)
      else none := by
  by_cases h : offset.toNat + n.toNat ≤ s.length
  · rw [if_pos h, wordSlice?_of_le hin hmemory h]
  · rw [if_neg h, wordSlice?_of_lt hmemory (Nat.not_le.mp h)]

/-- Two bytes from the last place that a word can name. Their end wraps around to one. -/
example : (fixed [1, 2, 3] 3).wordSlice? 18446744073709551615 2 = none := by decide

end Sink

end RecordCodec
