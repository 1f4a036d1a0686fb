import RecordCodec.Error

/-!
# Byte sinks

An encoder writes into a sink: storage of which a first part, the committed bytes, counts as
written. A fixed sink lies over storage of a given size and never leaves it. A growable sink has
just the committed bytes, extends them with zeros, and may have a limit.

## Main definitions

* `Sink`, `Sink.committed`, `Sink.length` — the two kinds, and what was written so far.
* `Sink.reserve` — whether a number of further bytes fits.
* `Sink.alloc` — commits that number of further bytes, whose contents are whatever is there.
* `Sink.append` — commits given bytes; the same as to allocate and to fill (`append_eq_alloc`).
* `Sink.setLength`, `Sink.slice` — moves the end; looks at committed bytes.

## Refusals and misuse

A sink that has no room refuses, and that is an `Error` like any other: a fixed sink says how much
it has left, a growable one what length was wanted. To set the length past the storage of a fixed
sink, or past what memory can hold, or to ask for bytes past the committed length, is a mistake of
the caller's (`Misuse`), and changes nothing.

Lengths are natural numbers here, while memory is counted in 64-bit words. The bounds that this puts
on a growable sink are `maxLength` and `maxCount`.
-/

namespace RecordCodec

/-- The greatest 64-bit count. -/
def maxCount : Nat := UInt64.size - 1

/-- The greatest length that memory can have, in bytes. -/
def maxLength : Nat := UInt64.size / 2 - 1

/-- The bytes with those from `offset` on replaced by `data`, as far as `data` goes. -/
def overwrite (bs : Bytes) (offset : Nat) (data : Bytes) : Bytes :=
  bs.take offset ++ data ++ bs.drop (offset + data.length)

/-- A destination for bytes. -/
inductive Sink where
  /-- Storage of fixed size, of which the first `length` bytes are committed. -/
  | fixed (storage : Bytes) (length : Nat)
  /-- Committed bytes that may grow, up to the limit if there is one. -/
  | growable (bytes : Bytes) (limit : Option Nat)
  deriving DecidableEq, Repr

namespace Sink

/-- A mistake in the use of a sink. -/
inductive Misuse where
  /-- A length past the storage, or past what memory can hold. -/
  | lengthPastCapacity
  /-- A slice past the committed bytes. -/
  | slicePastLength
  deriving DecidableEq, Repr

/-- The text of a mistake. -/
def Misuse.message : Misuse → String
  | .lengthPastCapacity => "set_len past fixed capacity"
  | .slicePastLength => "slice past committed length"

/-- The text of a mistake, as this sink words it. Where a growable sink ends, memory does. -/
def Misuse.messageOn : Sink → Misuse → String
  | .growable _ _, .lengthPastCapacity => "capacity overflow"
  | _, mistake => mistake.message

/-- A fixed sink over storage, with nothing committed. -/
def overStorage (storage : Bytes) : Sink :=
  .fixed storage 0

/-- An empty growable sink. -/
def empty (limit : Option Nat) : Sink :=
  .growable [] limit

/-- The bytes that count as written. -/
def committed : Sink → Bytes
  | .fixed storage length => storage.take length
  | .growable bs _ => bs

/-- All bytes of the sink, committed or not. -/
def storage : Sink → Bytes
  | .fixed storage _ => storage
  | .growable bs _ => bs

/-- The number of committed bytes. -/
def length : Sink → Nat
  | .fixed _ length => length
  | .growable bs _ => bs.length

/-- The size of the storage, where it is fixed. -/
def capacity? : Sink → Option Nat
  | .fixed storage _ => some storage.length
  | .growable _ _ => none

/-- The room that is left, where the storage is fixed. -/
def remaining? : Sink → Option Nat
  | .fixed storage length => some (storage.length - length)
  | .growable _ _ => none

/-- Succeeds if `n` further bytes fit. -/
def reserve (n : Nat) : Sink → Except Error Unit
  | .fixed storage length =>
    if storage.length - length < n then .error (.bufferExhausted n (storage.length - length))
    else .ok ()
  | .growable bs limit =>
    let wanted := bs.length + n
    if maxCount < wanted then .error (.outOfMemory maxCount)
    else if maxLength < wanted || limit.any (· < wanted) then .error (.outOfMemory wanted)
    else .ok ()

/-- Moves the end of the committed bytes. A growable sink drops bytes or adds zeros. -/
def resize (n : Nat) : Sink → Sink
  | .fixed storage _ => .fixed storage n
  | .growable bs limit => .growable (bs.take n ++ List.replicate (n - bs.length) 0) limit

/-- Moves the end of the committed bytes, within the storage or within memory. The limit of a
growable sink is not asked for. -/
def setLength (n : Nat) : Sink → Except Misuse Sink
  | .fixed storage length =>
    if n ≤ storage.length then .ok (resize n (.fixed storage length))
    else .error .lengthPastCapacity
  | .growable bs limit =>
    if n ≤ bs.length ∨ n ≤ maxLength then .ok (resize n (.growable bs limit))
    else .error .lengthPastCapacity

/-- Commits `n` further bytes. -/
def alloc (n : Nat) (s : Sink) : Except Error Sink :=
  (s.reserve n).map fun _ => s.resize (s.length + n)

/-- The `n` committed bytes at `offset`. -/
def slice (offset n : Nat) (s : Sink) : Except Misuse Bytes :=
  if offset + n ≤ s.length then .ok ((s.storage.drop offset).take n)
  else .error .slicePastLength

/-- Replaces bytes of the storage. -/
def write (offset : Nat) (data : Bytes) : Sink → Sink
  | .fixed storage length => .fixed (overwrite storage offset data) length
  | .growable bs limit => .growable (overwrite bs offset data) limit

/-- Commits bytes with the given contents, room for them taken for granted. -/
def extend (data : Bytes) : Sink → Sink
  | .fixed storage length => .fixed (overwrite storage length data) (length + data.length)
  | .growable bs limit => .growable (bs ++ data) limit

/-- Commits further bytes with the given contents. -/
def append (data : Bytes) (s : Sink) : Except Error Sink :=
  (s.reserve data.length).map fun _ => s.extend data

/-- Drops all committed bytes of a growable sink, and says if the sink is one. -/
def clear : Sink → Sink × Bool
  | .fixed storage length => (.fixed storage length, false)
  | .growable _ limit => (.growable [] limit, true)

/-! ### Appending is allocating and filling -/

theorem write_resize (data : Bytes) (s : Sink) :
    (s.resize (s.length + data.length)).write s.length data = s.extend data := by
  cases s with
  | fixed storage n => rfl
  | growable bs limit =>
    have kept : bs.take (bs.length + data.length) = bs := List.take_of_length_le (by omega)
    simp [resize, length, write, overwrite, extend, kept]

theorem append_eq_alloc (data : Bytes) (s : Sink) :
    s.append data = (s.alloc data.length).map (write s.length data) := by
  rw [append, alloc]
  cases s.reserve data.length with
  | error e => rfl
  | ok u => exact congrArg Except.ok (write_resize data s).symm

end Sink

end RecordCodec
