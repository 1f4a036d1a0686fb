import RecordCodec.Binary.Length
import RecordCodec.Checksum
import RecordCodec.Cursor
import RecordCodec.Text.Utf8
import RecordCodec.Visit

/-!
# The binary decoder

Reads what the encoder writes. With the checksum option, the first run checks the trailer before it
looks at any field, and takes the trailer out of reach by moving the end of the cursor; a trailer
that was found right is not checked again. While it is wrong, every run fails and reads nothing.

The trailer is meant to be checked before anything is read. A decoder that was made to read into the
trailer before its first run stands behind the end after it (see `Cursor`).

A leaf is replaced by the value that was read only after all of it was read. The cursor may have
moved on by then: a text that is not UTF-8 has been passed over when that is found out. A block that
is to be owned is a copy of what was read, for which memory is taken to be there.

A decoded truth value is false for a zero byte and true for any other.
-/

namespace RecordCodec

/-- The memory of a decoder. -/
structure Decoder where
  cursor : Cursor
  /-- The trailer was found right and is out of the cursor's reach. -/
  verified : Bool
  deriving DecidableEq, Repr

namespace Decoder

/-- A decoder of a byte string. -/
def start (context : Context) (options : Mask) (buffer : Bytes) : Traversal Decoder :=
  .start .decode context options ⟨.ofBytes buffer, false⟩

/-- Cuts bytes off the input by one of the cursor's ways to cut. -/
def take (cut : Cursor → Except Error (Bytes × Cursor)) : Act Decoder Bytes := do
  Act.check
  let d ← Act.store
  let (bs, cursor) ← Act.require (cut d.cursor)
  Act.modifyStore fun d => { d with cursor := cursor }
  pure bs

/-- Reports a field that was read. -/
def saw (name : String) (shown : Shown) : Act Decoder Unit :=
  Act.report (.field .read name shown)

/-- Reads a 32-bit number. -/
def getWord (name : String) : Act Decoder UInt32 := do
  let bs ← take (Cursor.cut 4)
  let v := UInt32.ofNat (ofBigEndian bs)
  saw name (.u32 v)
  pure v

/-- Reads a length field and the bytes that it announces. -/
def getMeasured (name : String) : Act Decoder Bytes := do
  let n ← getWord name
  take (Cursor.cut n.toNat)

/-- Reads one leaf. -/
def read : (kind : Kind) → String → kind.Value → Act Decoder kind.Value
  | .u32, name, _ => getWord name
  | .u16, name, _ => do
    let bs ← take (Cursor.cut 2)
    let v := UInt16.ofNat (ofBigEndian bs)
    saw name (.u16 v)
    pure v
  | .u8, name, _ => do
    let bs ← take (Cursor.cut 1)
    let v := UInt8.ofNat (ofBigEndian bs)
    saw name (.u8 v)
    pure v
  | .bool, name, _ => do
    let bs ← take (Cursor.cut 1)
    let v := ofBigEndian bs != 0
    saw name (.bool v)
    pure v
  | .fixed, name, old => do
    let bs ← take (Cursor.cut old.length)
    saw name (.fixed bs.length (leading bs))
    pure bs
  | .block flags, name, _ => do
    let bs ←
      if meets flags BlockFlags.terminated then take (Cursor.cutTerminated name)
      else getMeasured name
    let isOwned := meets flags BlockFlags.owned
    saw name (.block bs.length (leading bs) (some isOwned))
    pure (ByteBlock.ofBytes isOwned bs)
  | .text, name, _ => do
    let bs ← getMeasured name
    match ofUtf8? bs with
    | none => Act.fail (.invalidUtf8 name)
    | some s => do
      saw name (.text s)
      pure s

/-- Checks the trailer, and takes it out of reach if it is right. -/
def verify : Act Decoder Unit := do
  let d ← Act.store
  let buffer := d.cursor.buffer
  if buffer.length < wordSize then Act.fail (.bufferExhausted wordSize buffer.length)
  else do
    let size := buffer.length - wordSize
    let stored := UInt32.ofNat (ofBigEndian (buffer.drop size))
    let computed := crc32 (buffer.take size)
    if stored = computed then do
      Act.report (.trailer .read stored)
      Act.modifyStore fun d =>
        { d with cursor := { d.cursor with limit := size }, verified := true }
    else Act.fail (.checksum stored computed)

/-- Begins a run: checks the trailer, if the options ask for one and it was not found right yet. -/
def prepare : Act Decoder Unit := do
  let t ← Act.state
  if t.store.verified || !t.has Options.checksum then pure () else verify

instance : Codec Decoder where
  visit := read
  unread d := some d.cursor.unread
  rewind d := { d with cursor := d.cursor.rewind }
  openRun := prepare

end Decoder

end RecordCodec
