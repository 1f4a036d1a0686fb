import RecordCodec.Text.Quoted

/-!
# What can go wrong

An error is a cause with the data that explains it; the wording is one function, `Error.message`.
The first error of a traversal is kept and handed out again by every later visit, so errors are
plain values that can be copied and compared.

`Error.corruptPayload` alone wraps another error, the failure of a decode that ran inside a
registry lookup; `Error.sources` lists what an error wraps, nearest first.
-/

namespace RecordCodec

/-- Why a key token does not read as the field that it should hold. -/
inductive KeyFault where
  /-- In the run of digits that starts at `offset`, a byte is no hexadecimal digit. -/
  | digit (offset : Nat) (fault : BadDigit)
  /-- A truth value is written with another byte than `0` or `1`. -/
  | flag (field : String) (byte : UInt8)
  /-- A fault that the caller words. -/
  | stated (text : String)
  deriving DecidableEq, Repr

/-- The text of a fault. -/
def KeyFault.message : KeyFault → String
  | .digit offset fault =>
    s!"offset {offset}: Invalid character {Quoted.byte fault.byte} at position {fault.place}"
  | .flag field byte => s!"field {field}: bad bool digit 0x{Hex.text [byte]}"
  | .stated text => text

/-- The cause of a failed visit, traversal or lookup. -/
inductive Error where
  /-- More bytes are asked for than the source or destination has left. -/
  | bufferExhausted (requested remaining : Nat)
  /-- The checksum in the trailer is not that of the bytes before it. -/
  | checksum (stored computed : UInt32)
  /-- The code belongs to no type of the family. -/
  | typeCode (code : UInt32) (family : String)
  /-- The type was found, but its payload does not decode. -/
  | corruptPayload (code : UInt32) (source : Error)
  /-- A destination may not grow to the length that is asked for. -/
  | outOfMemory (requested : Nat)
  /-- A key token does not parse. -/
  | invalidKey (fault : KeyFault)
  /-- A block that ends at its terminator contains the terminator. -/
  | embeddedTerminator (field : String)
  /-- The bytes of a text are not UTF-8. -/
  | invalidUtf8 (field : String)
  /-- A block is longer than its length field can say. -/
  | lengthOverflow (field : String) (length : Nat)
  /-- The input ends before the terminator of a block. -/
  | unterminatedField (field : String)
  deriving DecidableEq, Repr

namespace Error

/-- Eight hexadecimal digits after `0x`. -/
def wordText (n : UInt32) : String :=
  "0x" ++ Hex.text (bigEndian 4 n.toNat)

/-- The text of an error. -/
def message : Error → String
  | .bufferExhausted requested remaining =>
    s!"buffer exhausted: requested {requested} bytes, {remaining} remaining"
  | .checksum stored computed =>
    s!"checksum mismatch: stored {wordText stored}, computed {wordText computed}"
  | .typeCode code family => s!"type code {code} out of range for {family}"
  | .corruptPayload code source =>
    s!"corrupt payload for type code {code}: " ++ source.message
  | .outOfMemory requested => s!"out of memory: {requested} bytes requested"
  | .invalidKey fault => "invalid key: " ++ fault.message
  | .embeddedTerminator field => s!"field {field} contains the terminator byte"
  | .invalidUtf8 field => s!"field {field} is not valid UTF-8"
  | .lengthOverflow field length =>
    s!"field {field} is {length} bytes, over the u32 length limit"
  | .unterminatedField field => s!"field {field} is not terminated"

/-- The errors that an error wraps, nearest first. -/
def sources : Error → List Error
  | .corruptPayload _ source => source :: source.sources
  | _ => []

end Error

end RecordCodec
