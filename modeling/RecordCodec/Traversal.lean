import RecordCodec.Error

/-!
# The state of a traversal

A traversal is one codec at work on one or more records. Every codec keeps the same four things
beside its own memory: which way data flows, the context it works in, the option bits, and the
first error, once there is one. `Traversal σ` holds them together with the codec's memory
`store : σ`, so that what is true of the error does not depend on the codec.

## Main definitions

* `Direction`, `Context` — how a record may ask what is being done to it.
* `meets` — option bits and block flags are masks, and a mask meets some bits if it shares one.
* `Traversal` — the state; `Traversal.start` is one without an error.
* `Traversal.check` — the stored error, as a result.

Direction, context and options are set when a traversal starts. Nothing here prevents a codec from
changing them; that none does is a property of the codecs.
-/

namespace RecordCodec

/-- Which way data flows. -/
inductive Direction where
  /-- From the record to its serial form. -/
  | encode
  /-- From the serial form into the record. -/
  | decode
  /-- The record is only looked at. -/
  | inspect
  deriving DecidableEq, Repr

/-- The name that traces show. -/
def Direction.name : Direction → String
  | .encode => "Marshal"
  | .decode => "Unmarshal"
  | .inspect => "Info"

/-- Where the serial form lives. -/
inductive Context where
  | unknown
  | network
  | storage
  deriving DecidableEq, Repr

/-- The name of a context. -/
def Context.name : Context → String
  | .unknown => "Unknown"
  | .network => "Network"
  | .storage => "Local"

instance : Inhabited Context := ⟨.unknown⟩

/-- A set of bits. -/
abbrev Mask := UInt32

/-- The mask has one of the bits, at least. -/
def meets (mask bits : Mask) : Bool :=
  mask &&& bits != 0

namespace Options

/-- A checksum trailer ends the serial form. -/
def checksum : Mask := 1

/-- A text dump names each value. -/
def names : Mask := 2

/-- A text dump separates values with dots. -/
def dots : Mask := 4

end Options

namespace BlockFlags

/-- A decoded block is a copy that the record owns. -/
def owned : Mask := 1

/-- The block ends at a terminator byte and has no length field. -/
def terminated : Mask := 2

end BlockFlags

/-- The state of a traversal by a codec with memory `σ`. -/
structure Traversal (σ : Type) where
  direction : Direction
  context : Context
  options : Mask
  error : Option Error
  store : σ
  deriving DecidableEq, Repr

namespace Traversal

variable {σ : Type}

/-- A traversal without an error. -/
def start (direction : Direction) (context : Context) (options : Mask) (store : σ) :
    Traversal σ :=
  ⟨direction, context, options, none, store⟩

/-- An option bit is set. -/
def has (t : Traversal σ) (bits : Mask) : Bool :=
  meets t.options bits

/-- The stored error, if there is one. -/
def check (t : Traversal σ) : Except Error Unit :=
  match t.error with
  | some e => .error e
  | none => .ok ()

end Traversal

end RecordCodec
