import RecordCodec.Proofs.Sink.Uses
import RecordCodec.Sink.Words

/-!
# Sinks that are used again and again

A sink may be allocated from, cut back, looked into and written into in any order, and its storage
comes to hold bytes of all kinds: bytes that were committed once, bytes that never were, and zeros.
Whatever has been done with it, the next use comes out by the same few rules.

All of them hold of every sink whose end lies in its storage, and no use leads out of these. So they
are proved of one use, and carried along the history.

## Main definitions

* `Sink.after` — the sink after a history.
* `Sink.handsEver`, `Sink.onlyShrinks` — what a history hands out, and which lengths it sets.
* `Sink.Careful` — the rules for every sink.
* `Sink.Confined`, `Sink.Extensible` — those for storage, and for a growable sink.

## Main results

* `Sink.storage_after` — storage that no slice of the history has is as it was.
* `Sink.length_after_le` — a limit is kept.
* `sinks_atomic` — the rules after every history.
-/

namespace RecordCodec

namespace Sink

/-! ### Histories -/

/-- The sink after a history of uses. -/
def after : Sink → List Use → Sink
  | s, [] => s
  | s, u :: us => (s.use u).2.after us

/-- The byte at this place is in a slice that some use of the history hands out. -/
def handsEver : Sink → List Use → Nat → Bool
  | _, [], _ => false
  | s, u :: us, i => s.hands u (s.use u).1 i || (s.use u).2.handsEver us i

/-- Whenever the history sets a length, it is a lesser one. -/
def onlyShrinks : Sink → List Use → Bool
  | _, [] => true
  | s, u :: us => u.shrinks s && (s.use u).2.onlyShrinks us

variable {s : Sink} {limit : Option Nat} {capacity : Nat}

/-- No history leads out of the sinks whose end lies in their storage. -/
theorem Within.after (h : s.Within) (us : List Use) : (s.after us).Within := by
  -- the sink is left open, because the rest of a history starts from the one that is left
  induction us generalizing s with
  | nil => exact h
  | cons u us ih => exact ih ((use_used h u).within h)

theorem bound_after (h : s.Within) (us : List Use) : (s.after us).bound = s.bound := by
  induction us generalizing s with
  | nil => rfl
  | cons u us ih =>
    have hu := use_used h u
    exact (ih (hu.within h)).trans (hu.bound_eq h)

/-- **Storage that no slice has** is as it was. -/
theorem storage_after (h : s.Within) (hfixed : s.bound = .capacity capacity) {us : List Use}
    {i : Nat} (hi : s.handsEver us i = false) : (s.after us).storage[i]? = s.storage[i]? := by
  induction us generalizing s with
  | nil => rfl
  | cons u us ih =>
    have hu := use_used h u
    rw [handsEver, Bool.or_eq_false_iff] at hi
    obtain ⟨hfirst, hothers⟩ := hi
    have hrest := ih (hu.within h) ((hu.bound_eq h).trans hfixed) hothers
    exact hrest.trans (hu.storage_kept h hfixed hfirst)

/-- **A limit is kept** as long as lengths are set only to cut back. -/
theorem length_after_le (h : s.Within) (hgrowable : s.bound = .limit limit) {us : List Use}
    (hus : s.onlyShrinks us) (hlimit : ∀ most ∈ limit, s.length ≤ most) :
    ∀ most ∈ limit, (s.after us).length ≤ most := by
  induction us generalizing s with
  | nil => exact hlimit
  | cons u us ih =>
    have hu := use_used h u
    rw [onlyShrinks, Bool.and_eq_true] at hus
    obtain ⟨hfirst, hothers⟩ := hus
    exact ih (hu.within h) ((hu.bound_eq h).trans hgrowable) hothers
      (hu.length_le_limit h hgrowable hfirst hlimit)

/-! ### The rules for every sink -/

/-- The rules by which every sink takes its next use. -/
structure Careful (s : Sink) : Prop where
  /-- The end lies in the storage, and the storage in memory. -/
  within : s.Within
  /-- A slice is refused just if it goes past the end. -/
  slice_misused_iff : ∀ offset n data,
    (∃ m, (s.use (.slice offset n data)).1 = .misused m) ↔ s.length < offset + n
  /-- It is so too where the sum of the two words wraps around. -/
  wordSlice?_eq : ∀ offset n : UInt64, s.wordSlice? offset n =
    if offset.toNat + n.toNat ≤ s.length then some ((s.storage.drop offset.toNat).take n.toNat)
    else none
  /-- An allocation hands out bytes, or there is no room. It is never a mistake. -/
  alloc_cases : ∀ n data, (∃ bs, (s.use (.alloc n data)).1 = .contents bs) ∨
    ∃ e, (s.use (.alloc n data)).1 = .refused e
  /-- The bytes that it hands out are those behind the committed bytes, which stay. They are a slice
  of the sink with a length that may be set, and data is written over the first of them. -/
  allocated : ∀ n data bs, (s.use (.alloc n data)).1 = .contents bs →
    bs.length = n ∧ ∃ moved, s.setLength (s.length + n) = .ok moved ∧
      moved.slice s.length n = .ok bs ∧ moved.committed = s.committed ++ bs ∧
      (s.use (.alloc n data)).2 = moved.write s.length (data.take n) ∧
      (s.use (.alloc n data)).2.committed = s.committed ++ overwrite bs 0 (data.take n)
  /-- A slice shows the bytes that are there, and writing into it overwrites them and no others. -/
  sliced : ∀ offset n data bs, (s.use (.slice offset n data)).1 = .contents bs →
    bs = (s.storage.drop offset).take n ∧
      (s.use (.slice offset n data)).2.committed = overwrite s.committed offset (data.take n)
  /-- A length that is set is the new one, and what is committed up to there stays. -/
  lengthSet : ∀ n, (s.use (.setLength n)).1 = .lengthSet → (s.use (.setLength n)).2.length = n ∧
    (n ≤ s.length → (s.use (.setLength n)).2.committed = s.committed.take n)
  /-- A use that fails changes nothing. -/
  kept_of_failed : ∀ u, (s.use u).1.failed → (s.use u).2 = s

theorem Within.careful (h : s.Within) : s.Careful where
  within := h
  slice_misused_iff offset n data := (use_used h (.slice offset n data)).slice_misused_iff
  wordSlice?_eq := by
    have hmemory : maxLength < UInt64.size := by decide
    exact Sink.wordSlice?_eq h.length_le (Nat.lt_of_le_of_lt h.storage_le hmemory)
  alloc_cases n data := (use_used h (.alloc n data)).alloc_cases
  allocated n data bs hbs := (used_of_answer h hbs).allocated h
  sliced offset n data bs hbs := (used_of_answer h hbs).sliced h
  lengthSet n hset := by
    rw [(used_of_answer h hset).eq_resize]
    exact ⟨length_resize n s, committed_resize⟩
  kept_of_failed u hu := (use_used h u).kept_of_failed hu

theorem use_reserve_iff {n : Nat} :
    (s.use (.reserve n)).1 = .room (.ok ()) ↔ s.reserve n = .ok () := by
  show Answer.room (s.reserve n) = .room (.ok ()) ↔ _
  rw [Answer.room.injEq]

/-! ### The rules for storage -/

/-- The rules by which a sink over storage of this size takes its next use. -/
structure Confined (capacity : Nat) (s : Sink) : Prop where
  /-- The storage has its size. -/
  length_storage : s.storage.length = capacity
  /-- The end lies in it. -/
  length_le : s.length ≤ capacity
  /-- There is room for what is left. -/
  reserve_iff : ∀ n, (s.use (.reserve n)).1 = .room (.ok ()) ↔ n ≤ capacity - s.length
  /-- As much can be allocated. -/
  alloc_iff : ∀ n data,
    (∃ bs, (s.use (.alloc n data)).1 = .contents bs) ↔ n ≤ capacity - s.length
  /-- The end can be set to every place in the storage. -/
  setLength_misused_iff : ∀ n, (∃ m, (s.use (.setLength n)).1 = .misused m) ↔ capacity < n

theorem Within.confined (h : s.Within) (hfixed : s.bound = .capacity capacity) :
    s.Confined capacity := by
  obtain ⟨storage, length, rfl, rfl⟩ :
      ∃ storage length, s = .fixed storage length ∧ storage.length = capacity := by
    cases s with
    | fixed storage length => exact ⟨storage, length, rfl, Bound.capacity.inj hfixed⟩
    | growable bs limit => cases hfixed
  exact {
    length_storage := rfl
    length_le := h.length_le
    reserve_iff := fun n => use_reserve_iff.trans reserve_fixed_iff
    alloc_iff := fun n data =>
      (use_used h (.alloc n data)).alloc_contents_iff.trans reserve_fixed_iff
    setLength_misused_iff := fun n => (use_used h (.setLength n)).setLength_misused_iff }

/-! ### The rules for growable sinks -/

/-- The rules by which a growable sink takes its next use. -/
structure Extensible (limit : Option Nat) (s : Sink) : Prop where
  /-- There is room for what memory can hold, up to the limit. -/
  reserve_iff : ∀ n, (s.use (.reserve n)).1 = .room (.ok ()) ↔
    s.length + n ≤ maxLength ∧ ∀ most ∈ limit, s.length + n ≤ most
  /-- As much can be allocated. -/
  alloc_iff : ∀ n data, (∃ bs, (s.use (.alloc n data)).1 = .contents bs) ↔
    s.length + n ≤ maxLength ∧ ∀ most ∈ limit, s.length + n ≤ most
  /-- The end can be set to every length that memory can hold. -/
  setLength_misused_iff : ∀ n, (∃ m, (s.use (.setLength n)).1 = .misused m) ↔ maxLength < n
  /-- Bytes that are allocated are zeros. -/
  alloc_zeros : ∀ n data bs, (s.use (.alloc n data)).1 = .contents bs → bs = List.replicate n 0
  /-- Bytes that come in with a greater length are zeros, and a lesser length drops the last. -/
  setLength_zeros : ∀ n, (s.use (.setLength n)).1 = .lengthSet →
    (s.use (.setLength n)).2.committed = s.committed.take n ++ List.replicate (n - s.length) 0

theorem Within.extensible (h : s.Within) (hgrowable : s.bound = .limit limit) :
    s.Extensible limit := by
  obtain ⟨bs, rfl⟩ : ∃ bs, s = .growable bs limit := by
    cases s with
    | fixed storage length => cases hgrowable
    | growable bs most => exact ⟨bs, congrArg (growable bs) (Bound.limit.inj hgrowable)⟩
  have hbs : bs.length ≤ maxLength := h.storage_le
  exact {
    reserve_iff := fun n => use_reserve_iff.trans reserve_growable_iff
    alloc_iff := fun n data =>
      (use_used h (.alloc n data)).alloc_contents_iff.trans reserve_growable_iff
    setLength_misused_iff := fun n => by
      rw [(use_used h (.setLength n)).setLength_misused_iff]
      show max bs.length maxLength < n ↔ maxLength < n
      rw [Nat.max_eq_right hbs]
    alloc_zeros := fun n data contents hcontents =>
      (used_of_answer h hcontents).contents_eq_zeros
    setLength_zeros := fun n hset => by
      rw [(used_of_answer h hset).eq_resize]
      rfl }

/-! ### New sinks -/

theorem within_overStorage {storage : Bytes} (h : storage.length ≤ maxLength) :
    (overStorage storage).Within :=
  ⟨Nat.zero_le _, h⟩

theorem within_empty (limit : Option Nat) : (empty limit).Within :=
  ⟨Nat.le_refl 0, Nat.zero_le _⟩

end Sink

open Sink (Use overStorage empty)

/-- **Sinks are atomic**, whatever they have been used for.

A slice is refused just if it goes past the committed bytes, also where the words that say where it
ends wrap around. An allocation keeps what is committed and hands out exactly the bytes behind it.
What fails, changes nothing. Storage has room for what is left of it, its end never leaves it, and
it is written nowhere but in the slices that were handed out. A growable sink has room for what
memory can hold, up to its limit, what comes in are zeros, and as long as lengths are set only to
cut it back, it stays within its limit. -/
theorem sinks_atomic :
    (∀ (storage : Bytes) (us : List Use), storage.length ≤ maxLength →
      let s := (overStorage storage).after us
      s.Careful ∧ s.Confined storage.length ∧
        ∀ i, (overStorage storage).handsEver us i = false → s.storage[i]? = storage[i]?) ∧
    ∀ (limit : Option Nat) (us : List Use),
      let s := (empty limit).after us
      s.Careful ∧ s.Extensible limit ∧
        ((empty limit).onlyShrinks us → ∀ most ∈ limit, s.length ≤ most) := by
  refine ⟨fun storage us hstorage => ?_, fun limit us => ?_⟩
  · have hstart := Sink.within_overStorage hstorage
    have hs := hstart.after us
    refine ⟨hs.careful, hs.confined (Sink.bound_after hstart us), fun i hi => ?_⟩
    exact Sink.storage_after hstart rfl hi
  · have hstart := Sink.within_empty limit
    have hs := hstart.after us
    refine ⟨hs.careful, hs.extensible (Sink.bound_after hstart us), fun hus => ?_⟩
    exact Sink.length_after_le hstart rfl hus fun most _ => Nat.zero_le most

/-- Three bytes are allocated, two dropped, and two allocated again. In storage these are what was
there before, and in a growable sink zeros. One is written into, and then there are no two bytes to
be looked at, nor room for two more. -/
theorem sinks_atomic_reused :
    let us := [Use.alloc 3 [7, 8], .setLength 1, .alloc 2 [], .slice 1 1 [5], .slice 2 2 [],
      .alloc 2 []]
    let fixed := (overStorage [1, 2, 3, 4]).after us
    let growable := (empty (some 4)).after us
    fixed = .fixed [7, 5, 3, 4] 3 ∧ fixed.storage[3]? = some 4 ∧
      growable = .growable [7, 5, 0] (some 4) ∧ growable.length ≤ 4 := by
  intro us fixed growable
  have hstorage : ([1, 2, 3, 4] : Bytes).length ≤ maxLength := by decide
  have huntouched : (overStorage [1, 2, 3, 4]).handsEver us 3 = false := by rfl
  have hshrinks : (empty (some 4)).onlyShrinks us := by rfl
  refine ⟨rfl, ?_, rfl, ?_⟩
  · exact (sinks_atomic.1 [1, 2, 3, 4] us hstorage).2.2 3 huntouched
  · exact (sinks_atomic.2 (some 4) us).2.2 hshrinks 4 rfl

end RecordCodec
