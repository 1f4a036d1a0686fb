import RecordCodec.Cursor
import RecordCodec.Text.Utf8
import RecordCodec.Visit

/-!
# Reading keys

Reads what a key encoder writes, and a little more: digits may be of either case, and a border is
passed over by its length alone, whatever its bytes are.

The value of a leaf is replaced once its own bytes are read; a border that is missing then fails the
visit of a leaf that has its new value already.
-/

namespace RecordCodec

/-- The memory of a key decoder. -/
structure KeyDecoder where
  cursor : Cursor
  borderLength : Nat
  deriving DecidableEq, Repr

namespace KeyDecoder

/-- A decoder of a key. -/
def start (border : Option String) (buffer : Bytes) : Traversal KeyDecoder :=
  .start .decode .storage 0 ⟨.ofBytes buffer, ((border.map utf8).getD []).length⟩

/-- Cuts off `n` bytes. -/
def take (n : Nat) : Act KeyDecoder Bytes := do
  Act.check
  let d ← Act.store
  let (bs, cursor) ← Act.require (d.cursor.cut n)
  Act.modifyStore fun d => { d with cursor := cursor }
  pure bs

/-- Reads a number of `width` bytes from its digits. -/
def getDigits (width : Nat) : Act KeyDecoder Nat := do
  let d ← Act.store
  let digits ← take (2 * width)
  match Hex.decode digits with
  | .error fault => Act.fail (.invalidKey (.digit d.cursor.offset fault))
  | .ok bs => pure (ofBigEndian bs)

/-- Reads the digits of a length and the bytes that it announces. -/
def getMeasured : Act KeyDecoder Bytes := do
  let n ← getDigits 4
  take n

/-- Reads one leaf. -/
def read : (kind : Kind) → String → kind.Value → Act KeyDecoder kind.Value
  | .u32, _, _ => do
    let n ← getDigits 4
    pure (UInt32.ofNat n)
  | .u16, _, _ => do
    let n ← getDigits 2
    pure (UInt16.ofNat n)
  | .u8, _, _ => do
    let n ← getDigits 1
    pure (UInt8.ofNat n)
  | .bool, name, _ => do
    let bs ← take 1
    let b := UInt8.ofNat (ofBigEndian bs)
    if b = 49 then pure true
    else if b = 48 then pure false
    else Act.fail (.invalidKey (.flag name b))
  | .fixed, _, old => take old.length
  | .block flags, _, _ => do
    let bs ← getMeasured
    pure (ByteBlock.ofBytes (meets flags BlockFlags.owned) bs)
  | .text, name, _ => do
    let bs ← getMeasured
    match ofUtf8? bs with
    | none => Act.fail (.invalidUtf8 name)
    | some s => pure s

/-- Passes over the border. -/
def skipBorder : Act KeyDecoder Unit := do
  let d ← Act.store
  let _ ← take d.borderLength
  pure ()

instance : Codec KeyDecoder where
  visit := read
  close := skipBorder
  unread d := some d.cursor.unread

end KeyDecoder

end RecordCodec
