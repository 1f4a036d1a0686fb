import RecordCodec.Binary.Length
import RecordCodec.Text.Utf8
import RecordCodec.Visit

/-!
# Measuring the binary form

A sizer adds up the bytes that an encoder with the same options would write. The trailer is counted
once, when the first run begins.

A sizer does not look into blocks: it also measures a block that cannot be encoded because it
contains its terminator. It reports a block before it looks at the stored error.

The size is a number without an upper end. It stands for a word of 64 bits as long as it is below
2⁶⁴, and as it never goes down, it is enough to know that of the size in the end.
-/

namespace RecordCodec

/-- The memory of a sizer. -/
structure Sizer where
  size : Nat
  /-- The trailer is counted. -/
  framed : Bool
  deriving DecidableEq, Repr

namespace Sizer

/-- A sizer with nothing measured. -/
def start (context : Context) (options : Mask) : Traversal Sizer :=
  .start .inspect context options ⟨0, false⟩

/-- Adds to the size. -/
def add (n : Nat) : Act Sizer Unit := do
  Act.check
  Act.modifyStore fun s => { s with size := s.size + n }

/-- Adds a block and its length field. -/
def addMeasured (name : String) (n : Nat) : Act Sizer Unit := do
  Act.check
  let _ ← Act.require (lengthField name n)
  add (wordSize + n)

/-- Measures one leaf. -/
def measure : (kind : Kind) → String → kind.Value → Act Sizer Unit
  | .u32, _, _ => add 4
  | .u16, _, _ => add 2
  | .u8, _, _ => add 1
  | .bool, _, _ => add 1
  | .fixed, _, bs => add bs.length
  | .block flags, name, b => do
    Act.report (.measured name b.length)
    if meets flags BlockFlags.terminated then add (b.length + 1)
    else addMeasured name b.length
  | .text, name, s => addMeasured name (utf8 s).length

/-- Counts the trailer, if the options ask for one and it is not counted yet. -/
def countTrailer : Act Sizer Unit := do
  let t ← Act.state
  if t.store.framed || !t.has Options.checksum then pure ()
  else Act.modifyStore fun s => { s with size := s.size + wordSize, framed := true }

instance : Codec Sizer where
  visit kind name v := do
    measure kind name v
    pure v
  openRun := countTrailer

end Sizer

end RecordCodec
