import RecordCodec.Bytes

/-!
# Byte blocks

A block of variable length that a record holds: a view into a buffer that it shares, or bytes of
its own. Which of the two it is can be asked, but a block is compared with another as data, by its
contents (`ByteBlock.agrees`); equality of blocks is finer and also compares ownership.
-/

namespace RecordCodec

/-- A block of variable length. -/
inductive ByteBlock where
  /-- A part of a shared buffer. -/
  | view (bytes : Bytes)
  /-- Bytes of the record's own. -/
  | owned (bytes : Bytes)
  deriving DecidableEq, Repr

namespace ByteBlock

/-- A view of nothing. -/
def empty : ByteBlock := .view []

instance : Inhabited ByteBlock := ⟨empty⟩

/-- The contents. -/
def toBytes : ByteBlock → Bytes
  | .view bs | .owned bs => bs

/-- The number of bytes. -/
def length (b : ByteBlock) : Nat :=
  b.toBytes.length

/-- The bytes are the record's own. -/
def isOwned : ByteBlock → Bool
  | .view _ => false
  | .owned _ => true

/-- A block with the given contents and ownership. -/
def ofBytes (isOwned : Bool) (bs : Bytes) : ByteBlock :=
  if isOwned then .owned bs else .view bs

/-- The two blocks have the same contents. -/
def agrees (a b : ByteBlock) : Bool :=
  a.toBytes == b.toBytes

@[simp] theorem toBytes_ofBytes (o : Bool) (bs : Bytes) : (ofBytes o bs).toBytes = bs := by
  cases o <;> rfl

@[simp] theorem isOwned_ofBytes (o : Bool) (bs : Bytes) : (ofBytes o bs).isOwned = o := by
  cases o <;> rfl

end ByteBlock

end RecordCodec
