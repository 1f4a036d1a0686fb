import RecordCodec.Error

/-!
# Reading a byte string from front to back

A cursor is a place in a byte string together with the end of what may be read, which can lie
before the end of the string. Everything that is read is cut off at the front: a given number of
bytes, or the bytes up to a terminator. A cut that asks for more than there is fails and moves
nothing.

The place and the end are plain numbers. A cursor that was started by `Cursor.ofBytes` has
`offset ≤ limit ≤ buffer.length`, and no cut changes that. Only one thing can: a decoder moves the
end to the front, to put a trailer out of reach, and if the trailer has been read into by then, the
cursor stands behind its end. The number of bytes left would be below zero there. Here nothing is
left, `unread` is zero and `rest` is empty, and what a decoder does from such a place is not to be
relied on.
-/

namespace RecordCodec

/-- A place in a byte string. -/
structure Cursor where
  buffer : Bytes
  /-- The number of bytes read. -/
  offset : Nat
  /-- The end of what may be read. -/
  limit : Nat
  deriving DecidableEq, Repr

namespace Cursor

/-- The start of a byte string, all of which may be read. -/
def ofBytes (buffer : Bytes) : Cursor :=
  ⟨buffer, 0, buffer.length⟩

/-- The number of bytes left to read, and zero behind the end. -/
def unread (c : Cursor) : Nat :=
  c.limit - c.offset

/-- The bytes left to read. -/
def rest (c : Cursor) : Bytes :=
  (c.buffer.drop c.offset).take c.unread

/-- Cuts off `n` bytes. -/
def cut (n : Nat) (c : Cursor) : Except Error (Bytes × Cursor) :=
  if c.unread < n then .error (.bufferExhausted n c.unread)
  else .ok ((c.buffer.drop c.offset).take n, { c with offset := c.offset + n })

/-- Cuts off the bytes before the first zero, and the zero, on behalf of a field. -/
def cutTerminated (field : String) (c : Cursor) : Except Error (Bytes × Cursor) :=
  let rest := c.rest
  let data := rest.takeWhile (· != 0)
  if data.length = rest.length then .error (.unterminatedField field)
  else .ok (data, { c with offset := c.offset + (data.length + 1) })

/-- Back to the first byte. -/
def rewind (c : Cursor) : Cursor :=
  { c with offset := 0 }

/-! ### What a cut does, and when it fails -/

theorem cut_eq_ok_iff {n : Nat} {c c' : Cursor} {bs : Bytes} :
    c.cut n = .ok (bs, c') ↔
      n ≤ c.unread ∧ bs = (c.buffer.drop c.offset).take n ∧
        c' = { c with offset := c.offset + n } := by
  rw [cut]
  by_cases h : c.unread < n
  · rw [if_pos h]
    exact ⟨nofun, fun e => absurd h (Nat.not_lt.mpr e.1)⟩
  · rw [if_neg h, Except.ok.injEq, Prod.mk.injEq]
    exact ⟨fun e => ⟨Nat.not_lt.mp h, e.1.symm, e.2.symm⟩, fun e => ⟨e.2.1.symm, e.2.2.symm⟩⟩

theorem cut_eq_error_iff {n : Nat} {c : Cursor} {e : Error} :
    c.cut n = .error e ↔ c.unread < n ∧ e = .bufferExhausted n c.unread := by
  rw [cut]
  by_cases h : c.unread < n
  · rw [if_pos h, Except.error.injEq]
    exact ⟨fun same => ⟨h, same.symm⟩, fun same => same.2.symm⟩
  · rw [if_neg h]
    exact ⟨nofun, fun same => absurd same.1 h⟩

end Cursor

end RecordCodec
