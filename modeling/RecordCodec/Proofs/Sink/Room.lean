import RecordCodec.Sink

/-!
# Writing where there is room

`Sink.reserve n` succeeds if `n` further bytes fit. Everything an encoder needs of a sink follows
from one such success for all that it is going to write: each write in turn finds its room, adds
its bytes behind the committed ones, and leaves room for the rest.

None of this asks whether a fixed sink has its committed length inside its storage. Where it does
not, no room is left, so there is room for no bytes only, and to write no bytes changes nothing.
Going back is different (`committed_resize`, `reserve_resize`), and there the committed bytes must
be as many as the sink says.

## Main results

* `Sink.append_of_room`, `Sink.extend_extend` — a write with room, and two in a row.
* `Sink.committed_extend`, `Sink.length_extend`, `Sink.reserve_extend` — the sink after a write.
* `Sink.committed_resize`, `Sink.reserve_resize` — the sink after its end was moved back.
-/

namespace RecordCodec.Sink

/-! ### Overwriting

The first lemma is the one fact about `overwrite` that the others need: its result splits behind
the data. -/

theorem overwrite_eq (bs : Bytes) (offset : Nat) (data : Bytes) :
    overwrite bs offset data = (bs.take offset ++ data) ++ bs.drop (offset + data.length) := rfl

theorem length_overwrite {bs : Bytes} {offset : Nat} {data : Bytes}
    (h : offset + data.length ≤ bs.length) : (overwrite bs offset data).length = bs.length := by
  rw [overwrite_eq, List.length_append, List.length_append, List.length_take, List.length_drop]
  omega

theorem length_take_append {bs : Bytes} {offset : Nat} (h : offset ≤ bs.length) (data : Bytes) :
    (bs.take offset ++ data).length = offset + data.length := by
  rw [List.length_append, List.length_take_of_le h]

theorem take_overwrite {bs : Bytes} {offset : Nat} (h : offset ≤ bs.length) (data : Bytes) :
    (overwrite bs offset data).take (offset + data.length) = bs.take offset ++ data :=
  List.take_left' (length_take_append h data)

/-- To overwrite, and to go on behind what was written, is to overwrite once. -/
theorem overwrite_overwrite {bs : Bytes} {offset : Nat} (h : offset ≤ bs.length)
    (data more : Bytes) :
    overwrite (overwrite bs offset data) (offset + data.length) more =
      overwrite bs offset (data ++ more) := by
  have hrest : (overwrite bs offset data).drop (offset + data.length + more.length) =
      bs.drop (offset + (data ++ more).length) := by
    rw [← List.drop_drop, overwrite_eq, List.drop_left' (length_take_append h data),
      List.drop_drop, List.length_append, Nat.add_assoc]
  rw [overwrite_eq, take_overwrite h, hrest, overwrite_eq, List.append_assoc _ data]

/-! ### Room -/

theorem reserve_fixed_iff {storage : Bytes} {length n : Nat} :
    (Sink.fixed storage length).reserve n = .ok () ↔ n ≤ storage.length - length := by
  simp only [reserve]
  by_cases h : storage.length - length < n
  · rw [if_pos h]
    constructor
    · rintro ⟨⟩
    · intro hroom
      exact absurd h (Nat.not_lt.mpr hroom)
  · rw [if_neg h]
    exact iff_of_true rfl (Nat.not_lt.mp h)

theorem reserve_growable_iff {bs : Bytes} {limit : Option Nat} {n : Nat} :
    (Sink.growable bs limit).reserve n = .ok () ↔
      bs.length + n ≤ maxLength ∧ ∀ most ∈ limit, bs.length + n ≤ most := by
  have hmax : maxLength < maxCount := by decide
  simp only [reserve]
  by_cases hcount : maxCount < bs.length + n
  · rw [if_pos hcount]
    constructor
    · rintro ⟨⟩
    · rintro ⟨hfits, -⟩
      omega
  · rw [if_neg hcount]
    by_cases hlength : maxLength < bs.length + n
    · rw [if_pos (by simp [hlength])]
      constructor
      · rintro ⟨⟩
      · rintro ⟨hfits, -⟩
        omega
    · cases limit with
      | none => simp [hlength]; omega
      | some most =>
        by_cases hmost : most < bs.length + n
        · simp [hlength, hmost]
        · simp [hlength, hmost]
          omega

/-- An empty sink without a limit takes whatever memory can hold. -/
theorem reserve_empty_iff {n : Nat} : (empty none).reserve n = .ok () ↔ n ≤ maxLength := by
  rw [empty, reserve_growable_iff, List.length_nil, Nat.zero_add]
  constructor
  · rintro ⟨hfits, -⟩
    exact hfits
  · intro hfits
    exact ⟨hfits, nofun⟩

/-- Room for many bytes is room for fewer. -/
theorem reserve_of_le {s : Sink} {n m : Nat} (h : s.reserve m = .ok ()) (hn : n ≤ m) :
    s.reserve n = .ok () := by
  cases s with
  | fixed storage length =>
    rw [reserve_fixed_iff] at h ⊢
    omega
  | growable bs limit =>
    rw [reserve_growable_iff] at h ⊢
    obtain ⟨hfits, hlimit⟩ := h
    refine ⟨by omega, ?_⟩
    intro most hmost
    have hmore := hlimit most hmost
    omega

/-- A sink with room for a byte at least has as many committed bytes as it says. -/
theorem length_committed_of_room {s : Sink} {n : Nat} (h : s.reserve n = .ok ()) (hn : 0 < n) :
    s.committed.length = s.length := by
  cases s with
  | fixed storage length =>
    rw [reserve_fixed_iff] at h
    exact List.length_take_of_le (by omega)
  | growable bs limit => rfl

/-! ### Writes -/

theorem append_of_room {s : Sink} {data : Bytes} (h : s.reserve data.length = .ok ()) :
    s.append data = .ok (s.extend data) := by
  rw [append, h]
  rfl

/-- To write no bytes changes nothing. -/
theorem extend_nil (s : Sink) : s.extend [] = s := by
  cases s with
  | fixed storage length => simp [extend, overwrite]
  | growable bs limit => simp [extend]

@[simp] theorem length_extend (s : Sink) (data : Bytes) :
    (s.extend data).length = s.length + data.length := by
  cases s with
  | fixed storage length => rfl
  | growable bs limit => exact List.length_append

theorem committed_extend {s : Sink} {data : Bytes} (h : s.reserve data.length = .ok ()) :
    (s.extend data).committed = s.committed ++ data := by
  cases s with
  | fixed storage length =>
    by_cases hdata : data = []
    · rw [hdata, extend_nil, List.append_nil]
    · have hpos := List.length_pos_iff.mpr hdata
      rw [reserve_fixed_iff] at h
      exact take_overwrite (by omega) data
  | growable bs limit => rfl

/-- A write with room moves the end and nothing else. -/
theorem reserve_extend {s : Sink} {data : Bytes} {n : Nat}
    (h : s.reserve (data.length + n) = .ok ()) : (s.extend data).reserve n = .ok () := by
  cases s with
  | fixed storage length =>
    by_cases hdata : data = []
    · rw [hdata, extend_nil]
      exact reserve_of_le h (by omega)
    · have hpos := List.length_pos_iff.mpr hdata
      rw [reserve_fixed_iff] at h
      rw [extend, reserve_fixed_iff, length_overwrite (by omega)]
      omega
  | growable bs limit =>
    rw [reserve_growable_iff] at h
    obtain ⟨hfits, hlimit⟩ := h
    rw [extend, reserve_growable_iff, List.length_append]
    refine ⟨by omega, ?_⟩
    intro most hmost
    have hmore := hlimit most hmost
    omega

/-- Two writes in a row are one. -/
theorem extend_extend {s : Sink} {data more : Bytes}
    (h : s.reserve (data.length + more.length) = .ok ()) :
    (s.extend data).extend more = s.extend (data ++ more) := by
  cases s with
  | fixed storage length =>
    by_cases hdata : data = []
    · rw [hdata, extend_nil, List.nil_append]
    · have hpos := List.length_pos_iff.mpr hdata
      rw [reserve_fixed_iff] at h
      simp only [extend]
      rw [overwrite_overwrite (by omega), List.length_append, Nat.add_assoc]
  | growable bs limit => simp [extend]

/-! ### Going back -/

@[simp] theorem length_resize (n : Nat) (s : Sink) : (s.resize n).length = n := by
  cases s with
  | fixed storage length => rfl
  | growable bs limit =>
    simp only [resize, length, List.length_append, List.length_take, List.length_replicate]
    omega

theorem committed_resize {n : Nat} {s : Sink} (h : n ≤ s.length) :
    (s.resize n).committed = s.committed.take n := by
  cases s with
  | fixed storage length =>
    have h' : n ≤ length := h
    show storage.take n = (storage.take length).take n
    rw [List.take_take, Nat.min_eq_left h']
  | growable bs limit =>
    have h' : n ≤ bs.length := h
    show bs.take n ++ List.replicate (n - bs.length) 0 = bs.take n
    rw [Nat.sub_eq_zero_of_le h', List.replicate_zero, List.append_nil]

/-- Moving the end back makes room for the bytes that were dropped. -/
theorem reserve_resize {n m : Nat} {s : Sink} (hlen : s.committed.length = s.length)
    (hn : n ≤ s.length) (h : s.reserve m = .ok ()) :
    (s.resize n).reserve (s.length - n + m) = .ok () := by
  cases s with
  | fixed storage length =>
    have hfits : length ≤ storage.length := by
      have := List.length_take_le' length storage
      simp only [committed, Sink.length] at hlen
      omega
    rw [reserve_fixed_iff] at h
    rw [resize, reserve_fixed_iff]
    simp only [Sink.length] at hn ⊢
    omega
  | growable bs limit =>
    have hback := length_resize n (.growable bs limit)
    rw [reserve_growable_iff] at h
    simp only [resize, length] at hback hn ⊢
    obtain ⟨hfits, hlimit⟩ := h
    rw [reserve_growable_iff, hback]
    refine ⟨by omega, ?_⟩
    intro most hmost
    have hmore := hlimit most hmost
    omega

/-- What was written is dropped again, and nothing else. -/
theorem committed_resize_extend {s : Sink} {data : Bytes} {n : Nat}
    (hlen : s.committed.length = s.length) (h : s.reserve (data.length + n) = .ok ()) :
    ((s.extend data).resize s.length).committed = s.committed := by
  have hfits : s.reserve data.length = .ok () := reserve_of_le h (Nat.le_add_right _ _)
  have hback : s.length ≤ (s.extend data).length := by
    rw [length_extend]
    exact Nat.le_add_right _ _
  rw [committed_resize hback, committed_extend hfits, List.take_left' hlen]

/-- The room for what was written is there again. -/
theorem reserve_resize_extend {s : Sink} {data : Bytes} {n : Nat}
    (hlen : s.committed.length = s.length) (h : s.reserve (data.length + n) = .ok ()) :
    ((s.extend data).resize s.length).reserve (data.length + n) = .ok () := by
  have hfits : s.reserve data.length = .ok () := reserve_of_le h (Nat.le_add_right _ _)
  have hsame : (s.extend data).committed.length = (s.extend data).length := by
    rw [committed_extend hfits, List.length_append, length_extend, hlen]
  have hback : s.length ≤ (s.extend data).length := by
    rw [length_extend]
    exact Nat.le_add_right _ _
  have hroom := reserve_resize hsame hback (reserve_extend h)
  rwa [length_extend, Nat.add_sub_cancel_left] at hroom

end RecordCodec.Sink
