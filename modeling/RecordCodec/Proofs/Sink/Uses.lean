import RecordCodec.Proofs.Sink.Room
import RecordCodec.Sink.Use

/-!
# What a use does to a sink

A sink that is used directly is in the hands of its caller, who may ask for any number of bytes, set
any length, and look at any slice. All that can come of it is said once, in `Sink.Used`, and the
rest is read off from there.

An allocation is made of three parts: there is room, the length is set, and the slice behind the old
end is looked at. By itself, each of the last two could be a mistake, and an allocation that stopped
in between would leave the sink half changed. It does not happen where the end of a sink lies in its
storage: room for the bytes is room for the new end, and the slice ends there.

## Main definitions

* `Sink.Within` — the end of the sink lies in its storage, and the storage in memory.
* `Sink.bound` — what no use changes: the size of the storage, or the limit.
* `Sink.reach` — the greatest length that may be set.
* `Sink.Used` — what comes of a use.

## Main results

* `Sink.use_used` — nothing else comes of it.
* `Sink.Used.within`, `Sink.Used.bound_eq` — what every use keeps.
* `Sink.Used.allocated`, `Sink.Used.sliced` — what is handed out.
* `Sink.Used.kept_of_failed` — a use that fails leaves the sink as it was.
* `Sink.Used.storage_kept` — a use writes nowhere but in the slice that it hands out.
* `Sink.Used.contents_eq_zeros`, `Sink.Used.length_le_limit` — how a growable sink grows.
-/

namespace RecordCodec.Sink

/-! ### Overwriting in place -/

/-- To overwrite behind the first bytes is to overwrite the others. -/
theorem overwrite_append {bs more : Bytes} {n : Nat} (h : bs.length = n) (data : Bytes) :
    overwrite (bs ++ more) n data = bs ++ overwrite more 0 data := by
  subst h
  rw [overwrite_eq, overwrite_eq, List.take_left, List.drop_length_add_append, List.take_zero,
    List.nil_append, Nat.zero_add, List.append_assoc]

/-- The first bytes, where the data is among them. -/
theorem take_overwrite_of_le {bs data : Bytes} {offset n : Nat} (h : offset + data.length ≤ n)
    (hn : n ≤ bs.length) :
    (overwrite bs offset data).take n = overwrite (bs.take n) offset data := by
  have hoffset : offset ≤ bs.length := by omega
  have hfront : (bs.take n).take offset = bs.take offset := by
    rw [List.take_take, Nat.min_eq_left (by omega)]
  rw [overwrite_eq, overwrite_eq, hfront, List.take_append, length_take_append hoffset,
    List.take_of_length_le (by rw [length_take_append hoffset]; exact h), List.drop_take]

/-- What lies outside of the data is not overwritten. -/
theorem getElem?_overwrite {bs data : Bytes} {offset i : Nat} (h : offset ≤ bs.length)
    (hi : i < offset ∨ offset + data.length ≤ i) : (overwrite bs offset data)[i]? = bs[i]? := by
  have hfront := length_take_append h data
  rw [overwrite_eq]
  rcases hi with hbefore | hbehind
  · have htake : i < (bs.take offset).length := by rwa [List.length_take_of_le h]
    rw [List.getElem?_append_left (by omega), List.getElem?_append_left htake,
      List.getElem?_take_of_lt hbefore]
  · rw [List.getElem?_append_right (by omega), hfront, List.getElem?_drop,
      Nat.add_sub_of_le hbehind]

/-! ### Sinks in memory -/

/-- The end of the sink lies in its storage, and the storage in memory. -/
structure Within (s : Sink) : Prop where
  length_le : s.length ≤ s.storage.length
  storage_le : s.storage.length ≤ maxLength

/-- What bounds a sink. -/
inductive Bound where
  /-- The size of its storage. -/
  | capacity (n : Nat)
  /-- Its limit, if there is one. -/
  | limit (most : Option Nat)

/-- What bounds this sink. -/
def bound : Sink → Bound
  | .fixed storage _ => .capacity storage.length
  | .growable _ limit => .limit limit

/-- The greatest length that may be set. -/
def reach : Sink → Nat
  | .fixed storage _ => storage.length
  | .growable bs _ => max bs.length maxLength

variable {s s' moved : Sink} {u : Use} {a : Answer} {offset n : Nat} {data bs : Bytes}

theorem committed_eq (s : Sink) : s.committed = s.storage.take s.length := by
  cases s with
  | fixed storage length => rfl
  | growable bs limit => exact List.take_length.symm

theorem Within.length_committed (h : s.Within) : s.committed.length = s.length := by
  rw [committed_eq, List.length_take_of_le h.length_le]

/-! ### Slices and lengths

Both are granted under a condition, and refused with one mistake otherwise. -/

theorem guard_eq_ok_iff {ε α : Type} {p : Prop} [Decidable p] {a b : α} {e : ε} :
    (if p then Except.ok a else .error e) = .ok b ↔ p ∧ b = a := by
  by_cases h : p <;> simp [h, eq_comm]

theorem guard_eq_error_iff {ε α : Type} {p : Prop} [Decidable p] {a : α} {e e' : ε} :
    (if p then Except.ok a else .error e) = .error e' ↔ ¬p ∧ e' = e := by
  by_cases h : p <;> simp [h, eq_comm]

theorem slice_eq_ok_iff :
    s.slice offset n = .ok bs ↔ offset + n ≤ s.length ∧ bs = (s.storage.drop offset).take n := by
  rw [slice, guard_eq_ok_iff]

theorem slice_eq_error_iff {m : Misuse} :
    s.slice offset n = .error m ↔ s.length < offset + n ∧ m = .slicePastLength := by
  rw [slice, guard_eq_error_iff, Nat.not_le]

theorem setLength_eq (n : Nat) (s : Sink) :
    s.setLength n = if n ≤ s.reach then .ok (s.resize n) else .error .lengthPastCapacity := by
  cases s with
  | fixed storage length => rfl
  | growable bs limit =>
    have hreach : n ≤ bs.length ∨ n ≤ maxLength ↔ n ≤ max bs.length maxLength := by omega
    by_cases h : n ≤ max bs.length maxLength
    · exact (if_pos (hreach.mpr h)).trans (if_pos h).symm
    · exact (if_neg (mt hreach.mp h)).trans (if_neg h).symm

theorem setLength_eq_ok_iff : s.setLength n = .ok moved ↔ n ≤ s.reach ∧ moved = s.resize n := by
  rw [setLength_eq, guard_eq_ok_iff]

theorem setLength_eq_error_iff {m : Misuse} :
    s.setLength n = .error m ↔ s.reach < n ∧ m = .lengthPastCapacity := by
  rw [setLength_eq, guard_eq_error_iff, Nat.not_le]

/-- **Room for bytes is room for the end behind them.** -/
theorem Within.reach_of_room (h : s.Within) (hroom : s.reserve n = .ok ()) :
    s.length + n ≤ s.reach := by
  cases s with
  | fixed storage length =>
    have hin : length ≤ storage.length := h.length_le
    rw [reserve_fixed_iff] at hroom
    show length + n ≤ storage.length
    omega
  | growable bs limit =>
    rw [reserve_growable_iff] at hroom
    exact Nat.le_trans hroom.1 (Nat.le_max_right _ _)

theorem Within.resize (h : s.Within) (hn : n ≤ s.reach) : (s.resize n).Within := by
  cases s with
  | fixed storage length => exact ⟨hn, h.storage_le⟩
  | growable bs limit =>
    have hbs : bs.length ≤ maxLength := h.storage_le
    have hend : ((growable bs limit).resize n).length = n := length_resize n _
    have hreach : n ≤ max bs.length maxLength := hn
    refine ⟨Nat.le_refl _, ?_⟩
    show ((growable bs limit).resize n).length ≤ maxLength
    omega

theorem bound_resize (n : Nat) (s : Sink) : (s.resize n).bound = s.bound := by
  cases s <;> rfl

/-- A growable sink that is made longer has zeros behind its bytes. -/
theorem resize_growable_add (bs : Bytes) (limit : Option Nat) (n : Nat) :
    (growable bs limit).resize (bs.length + n) = growable (bs ++ List.replicate n 0) limit := by
  rw [Sink.resize, List.take_of_length_le (Nat.le_add_right _ _), Nat.add_sub_cancel_left]

/-- Further bytes lie behind the committed ones. -/
theorem committed_resize_add (n : Nat) (s : Sink) :
    (s.resize (s.length + n)).committed =
      s.committed ++ ((s.resize (s.length + n)).storage.drop s.length).take n := by
  have hfront : (s.resize (s.length + n)).storage.take s.length = s.committed := by
    cases s with
    | fixed storage length => rfl
    | growable bs limit =>
      have hgrown := resize_growable_add bs limit n
      simp only [length, hgrown, storage, committed, List.take_left]
  rw [committed_eq, length_resize, List.take_add, hfront]

/-! ### Writing into a slice -/

theorem storage_write (s : Sink) (offset : Nat) (data : Bytes) :
    (s.write offset data).storage = overwrite s.storage offset data := by
  cases s <;> rfl

section

variable (h : s.Within) (hfits : offset + data.length ≤ s.length)

include h hfits

theorem Within.length_storage_write :
    (s.write offset data).storage.length = s.storage.length := by
  rw [storage_write, length_overwrite (Nat.le_trans hfits h.length_le)]

theorem Within.length_write : (s.write offset data).length = s.length := by
  have hsame := h.length_storage_write hfits
  cases s with
  | fixed storage length => rfl
  | growable bs limit => exact hsame

theorem Within.write : (s.write offset data).Within := by
  refine ⟨?_, ?_⟩
  · rw [h.length_write hfits, h.length_storage_write hfits]
    exact h.length_le
  · rw [h.length_storage_write hfits]
    exact h.storage_le

theorem Within.bound_write : (s.write offset data).bound = s.bound := by
  have hsame := h.length_storage_write hfits
  cases s with
  | fixed storage length => exact congrArg Bound.capacity hsame
  | growable bs limit => rfl

theorem Within.committed_write :
    (s.write offset data).committed = overwrite s.committed offset data := by
  rw [committed_eq, h.length_write hfits, storage_write,
    take_overwrite_of_le hfits h.length_le, ← committed_eq]

end

/-! ### What comes of a use -/

/-- What comes of a use: the answer, and the sink that is left. -/
inductive Used (s : Sink) : Use → Answer → Sink → Prop
  /-- There is no room. -/
  | refused {n : Nat} {data : Bytes} {e : Error} (h : s.reserve n = .error e) :
    Used s (.alloc n data) (.refused e) s
  /-- There is room, so the length is set, and the bytes behind the old end are handed out. -/
  | alloc {n : Nat} {data bs : Bytes} {moved : Sink} (room : s.reserve n = .ok ())
    (set : s.setLength (s.length + n) = .ok moved) (handed : moved.slice s.length n = .ok bs) :
    Used s (.alloc n data) (.contents bs) (moved.write s.length (data.take n))
  /-- A question for room changes nothing. -/
  | reserve (n : Nat) : Used s (.reserve n) (.room (s.reserve n)) s
  /-- The length may not be set. -/
  | unset {n : Nat} {m : Misuse} (h : s.setLength n = .error m) :
    Used s (.setLength n) (.misused m) s
  /-- The length is set. -/
  | set {n : Nat} {moved : Sink} (h : s.setLength n = .ok moved) :
    Used s (.setLength n) .lengthSet moved
  /-- The slice goes past the end. -/
  | beyond {offset n : Nat} {data : Bytes} {m : Misuse} (h : s.slice offset n = .error m) :
    Used s (.slice offset n data) (.misused m) s
  /-- The slice is handed out. -/
  | slice {offset n : Nat} {data bs : Bytes} (h : s.slice offset n = .ok bs) :
    Used s (.slice offset n data) (.contents bs) (s.write offset (data.take n))
  /-- The sink is cleared, if it is one that can be. -/
  | clear : Used s .clear (.cleared s.clear.2) s.clear.1

/-- **Nothing else comes of a use.** -/
theorem use_used (h : s.Within) (u : Use) : s.Used u (s.use u).1 (s.use u).2 := by
  cases u with
  | alloc n data =>
    cases hroom : s.reserve n with
    | error e =>
      have halloc : s.alloc n = .error e := by
        rw [alloc, hroom]
        rfl
      simp only [use, halloc]
      exact .refused hroom
    | ok _ =>
      have halloc : s.alloc n = .ok (s.resize (s.length + n)) := by
        rw [alloc, hroom]
        rfl
      -- the new end may be set, and the slice ends at it, so neither can be a mistake
      have hslice := slice_eq_ok_iff.mpr
        ⟨Nat.le_of_eq (length_resize (s.length + n) s).symm, rfl⟩
      simp only [use, halloc, useSlice, hslice]
      exact .alloc hroom (setLength_eq_ok_iff.mpr ⟨h.reach_of_room hroom, rfl⟩) hslice
  | reserve n => exact .reserve n
  | setLength n =>
    cases hset : s.setLength n with
    | error m =>
      simp only [use, hset]
      exact .unset hset
    | ok moved =>
      simp only [use, hset]
      exact .set hset
  | slice offset n data =>
    cases hslice : s.slice offset n with
    | error m =>
      simp only [use, useSlice, hslice]
      exact .beyond hslice
    | ok bs =>
      simp only [use, useSlice, hslice]
      exact .slice hslice
  | clear => exact .clear

/-- What comes of a use that was answered so. -/
theorem used_of_answer (h : s.Within) (ha : (s.use u).1 = a) : s.Used u a (s.use u).2 := by
  have hu := use_used h u
  rwa [ha] at hu

/-- A use that did not do what it was for. -/
def Answer.failed : Answer → Bool
  | .refused _ | .misused _ | .room (.error _) => true
  | .contents _ | .room (.ok _) | .lengthSet | .cleared _ => false

/-- The byte at this place is in the slice that a use hands out, if its answer says that it does. -/
def hands (s : Sink) : Use → Answer → Nat → Bool
  | .alloc n _, .contents _, i => s.length ≤ i && i < s.length + n
  | .slice offset n _, .contents _, i => offset ≤ i && i < offset + n
  | _, _, _ => false

/-- A use that sets no length but a lesser one. -/
def Use.shrinks (s : Sink) : Use → Bool
  | .setLength n => n ≤ s.length
  | .alloc _ _ | .reserve _ | .slice _ _ _ | .clear => true

theorem add_length_take_le {offset n m : Nat} (h : offset + n ≤ m) (data : Bytes) :
    offset + (data.take n).length ≤ m :=
  Nat.le_trans (Nat.add_le_add_left (List.length_take_le n data) offset) h

namespace Used

/-- **A use that fails** leaves the sink as it was. -/
theorem kept_of_failed (h : s.Used u a s') (ha : a.failed) : s' = s := by
  cases h with
  | refused | reserve | unset | beyond => rfl
  | alloc | set | slice | clear => cases ha

/-- The end stays in the storage, and the storage in memory. -/
theorem within (h : s.Used u a s') (hs : s.Within) : s'.Within := by
  cases h with
  | refused | reserve | unset | beyond => exact hs
  | alloc room set handed =>
    obtain ⟨hreach, rfl⟩ := setLength_eq_ok_iff.mp set
    have hend := (slice_eq_ok_iff.mp handed).1
    exact (hs.resize hreach).write (add_length_take_le hend _)
  | set set =>
    obtain ⟨hreach, rfl⟩ := setLength_eq_ok_iff.mp set
    exact hs.resize hreach
  | slice handed => exact hs.write (add_length_take_le (slice_eq_ok_iff.mp handed).1 _)
  | clear =>
    cases s with
    | fixed storage length => exact hs
    | growable bs limit => exact ⟨Nat.le_refl 0, Nat.zero_le _⟩

/-- The storage has the size that it had, and the limit is the same. -/
theorem bound_eq (h : s.Used u a s') (hs : s.Within) : s'.bound = s.bound := by
  cases h with
  | refused | reserve | unset | beyond => rfl
  | alloc room set handed =>
    obtain ⟨hreach, rfl⟩ := setLength_eq_ok_iff.mp set
    have hend := (slice_eq_ok_iff.mp handed).1
    rw [(hs.resize hreach).bound_write (add_length_take_le hend _), bound_resize]
  | set set =>
    obtain ⟨-, rfl⟩ := setLength_eq_ok_iff.mp set
    exact bound_resize _ _
  | slice handed => exact hs.bound_write (add_length_take_le (slice_eq_ok_iff.mp handed).1 _)
  | clear => cases s <;> rfl

/-- **What an allocation hands out** is exactly the bytes behind the committed ones, which stay. The
data is written over the first of them. -/
theorem allocated (h : s.Used (.alloc n data) (.contents bs) s') (hs : s.Within) :
    bs.length = n ∧ ∃ moved, s.setLength (s.length + n) = .ok moved ∧
      moved.slice s.length n = .ok bs ∧ moved.committed = s.committed ++ bs ∧
      s' = moved.write s.length (data.take n) ∧
      s'.committed = s.committed ++ overwrite bs 0 (data.take n) := by
  cases h with
  | alloc room set handed =>
    obtain ⟨hreach, rfl⟩ := setLength_eq_ok_iff.mp set
    obtain ⟨hend, rfl⟩ := slice_eq_ok_iff.mp handed
    have hmoved := hs.resize hreach
    have hcommitted := committed_resize_add n s
    refine ⟨?_, _, set, handed, hcommitted, rfl, ?_⟩
    · have hin := hmoved.length_le
      rw [length_resize] at hin
      rw [List.length_take_of_le]
      rw [List.length_drop]
      omega
    · rw [hmoved.committed_write (add_length_take_le hend _), hcommitted,
        overwrite_append hs.length_committed]

/-- **What a slice shows**, and what writing into it leaves committed. -/
theorem sliced (h : s.Used (.slice offset n data) (.contents bs) s') (hs : s.Within) :
    bs = (s.storage.drop offset).take n ∧
      s'.committed = overwrite s.committed offset (data.take n) := by
  cases h with
  | slice handed =>
    obtain ⟨hend, hbs⟩ := slice_eq_ok_iff.mp handed
    exact ⟨hbs, hs.committed_write (add_length_take_le hend _)⟩

theorem eq_resize (h : s.Used (.setLength n) .lengthSet s') : s' = s.resize n := by
  cases h with
  | set hset => exact (setLength_eq_ok_iff.mp hset).2

/-! ### When a use is refused -/

theorem alloc_contents_iff (h : s.Used (.alloc n data) a s') :
    (∃ bs, a = .contents bs) ↔ s.reserve n = .ok () := by
  cases h with
  | refused hroom =>
    rw [hroom]
    exact iff_of_false (by rintro ⟨bs, ⟨⟩⟩) (by rintro ⟨⟩)
  | alloc room set handed => exact iff_of_true ⟨_, rfl⟩ room

/-- An allocation is no mistake, however many bytes it is for. -/
theorem alloc_cases (h : s.Used (.alloc n data) a s') :
    (∃ bs, a = .contents bs) ∨ ∃ e, a = .refused e := by
  cases h with
  | refused hroom => exact .inr ⟨_, rfl⟩
  | alloc room set handed => exact .inl ⟨_, rfl⟩

theorem setLength_misused_iff (h : s.Used (.setLength n) a s') :
    (∃ m, a = .misused m) ↔ s.reach < n := by
  cases h with
  | unset hset => exact iff_of_true ⟨_, rfl⟩ (setLength_eq_error_iff.mp hset).1
  | set hset =>
    have hreach := (setLength_eq_ok_iff.mp hset).1
    exact iff_of_false (by rintro ⟨m, ⟨⟩⟩) (Nat.not_lt.mpr hreach)

theorem slice_misused_iff (h : s.Used (.slice offset n data) a s') :
    (∃ m, a = .misused m) ↔ s.length < offset + n := by
  cases h with
  | beyond hslice => exact iff_of_true ⟨_, rfl⟩ (slice_eq_error_iff.mp hslice).1
  | slice hslice =>
    have hend := (slice_eq_ok_iff.mp hslice).1
    exact iff_of_false (by rintro ⟨m, ⟨⟩⟩) (Nat.not_lt.mpr hend)

/-! ### Storage -/

/-- **Storage outside of the slice** that is handed out stays as it was. -/
theorem storage_kept (h : s.Used u a s') (hs : s.Within) {capacity i : Nat}
    (hfixed : s.bound = .capacity capacity) (hi : s.hands u a i = false) :
    s'.storage[i]? = s.storage[i]? := by
  -- to move the end of a fixed sink writes nothing; a growable one drops bytes and adds zeros
  have hresize : ∀ n, (s.resize n).storage = s.storage := by
    intro n
    cases s with
    | fixed storage length => rfl
    | growable bs limit => cases hfixed
  cases h with
  | refused | reserve | unset | beyond => rfl
  | @alloc n data bs moved room set handed =>
    obtain ⟨-, rfl⟩ := setLength_eq_ok_iff.mp set
    have hdata := List.length_take_le n data
    simp only [hands, Bool.and_eq_false_iff, decide_eq_false_iff_not] at hi
    rw [storage_write, hresize]
    exact getElem?_overwrite hs.length_le (by omega)
  | set set =>
    obtain ⟨-, rfl⟩ := setLength_eq_ok_iff.mp set
    rw [hresize]
  | @slice offset n data bs handed =>
    have hend := (slice_eq_ok_iff.mp handed).1
    have hin := hs.length_le
    have hdata := List.length_take_le n data
    simp only [hands, Bool.and_eq_false_iff, decide_eq_false_iff_not] at hi
    rw [storage_write]
    exact getElem?_overwrite (by omega) (by omega)
  | clear =>
    cases s with
    | fixed storage length => rfl
    | growable bs limit => cases hfixed

/-! ### Growth -/

/-- **What a growable sink hands out** to an allocation are zeros, also where other bytes were
before. -/
theorem contents_eq_zeros {contents : Bytes} {limit : Option Nat}
    (h : (growable bs limit).Used (.alloc n data) (.contents contents) s') :
    contents = List.replicate n 0 := by
  cases h with
  | alloc room set handed =>
    obtain ⟨-, rfl⟩ := setLength_eq_ok_iff.mp set
    obtain ⟨-, rfl⟩ := slice_eq_ok_iff.mp handed
    have hgrown := resize_growable_add bs limit n
    simp only [length, hgrown, storage, List.drop_left]
    exact List.take_of_length_le (Nat.le_of_eq List.length_replicate)

/-- **A limit is kept** by a use that sets no length but a lesser one. -/
theorem length_le_limit (h : s.Used u a s') (hs : s.Within) {limit : Option Nat}
    (hgrowable : s.bound = .limit limit) (hu : u.shrinks s)
    (hlimit : ∀ most ∈ limit, s.length ≤ most) : ∀ most ∈ limit, s'.length ≤ most := by
  intro most hmost
  have hlength := hlimit most hmost
  cases h with
  | refused | reserve | unset | beyond => exact hlength
  | alloc room set handed =>
    obtain ⟨hreach, rfl⟩ := setLength_eq_ok_iff.mp set
    have hend := (slice_eq_ok_iff.mp handed).1
    rw [(hs.resize hreach).length_write (add_length_take_le hend _), length_resize]
    cases s with
    | fixed storage length => cases hgrowable
    | growable bs limit =>
      cases hgrowable
      exact (reserve_growable_iff.mp room).2 most hmost
  | set set =>
    obtain ⟨-, rfl⟩ := setLength_eq_ok_iff.mp set
    rw [length_resize]
    exact Nat.le_trans (of_decide_eq_true hu) hlength
  | slice handed =>
    rw [hs.length_write (add_length_take_le (slice_eq_ok_iff.mp handed).1 _)]
    exact hlength
  | clear =>
    cases s with
    | fixed storage length => exact hlength
    | growable bs limit => exact Nat.zero_le _

end Used

end RecordCodec.Sink
