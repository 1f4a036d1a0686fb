import RecordCodec.Traversal

/-!
# Trace events

Codecs and registries report what they do as events. An event is the fact itself; its level, its
message and its attributes are functions of it, so that a statement about a trace need not mention
the wording.

An encoder and a decoder report the same facts about a field: `Event.field` carries what was seen
(`Shown`) and which way it flowed (`Flow`). A block that was decoded also says whether the record
owns it.
-/

namespace RecordCodec

/-- Whether a fact was written or read. -/
inductive Flow where
  | written
  | read
  deriving DecidableEq, Repr

/-- The arrow that messages end in. -/
def Flow.arrow : Flow → String
  | .written => "=>"
  | .read => "<="

/-- What an event shows of a value: numbers, truth values and texts whole, blocks by their length
and their leading bytes. -/
inductive Shown where
  | u32 (value : UInt32)
  | u16 (value : UInt16)
  | u8 (value : UInt8)
  | bool (value : Bool)
  | fixed (length : Nat) (head : Bytes)
  | block (length : Nat) (head : Bytes) (owned : Option Bool)
  | text (value : String)
  deriving DecidableEq, Repr

/-- The leading bytes of a block that an event shows. -/
def leading (bs : Bytes) : Bytes :=
  bs.take 16

/-- How serious an event is. -/
inductive Level where
  | trace
  | debug
  | warn
  | error
  deriving DecidableEq, Repr

/-- The name of a level. -/
def Level.name : Level → String
  | .trace => "TRACE"
  | .debug => "DEBUG"
  | .warn => "WARN"
  | .error => "ERROR"

/-- One thing that happened. -/
inductive Event where
  /-- A field was written or read. -/
  | field (flow : Flow) (name : String) (shown : Shown)
  /-- A trailer was written, or read and found right. -/
  | trailer (flow : Flow) (crc : UInt32)
  /-- A block was measured. -/
  | measured (name : String) (length : Nat)
  /-- A block was taken into a checksum. -/
  | summed (name : String) (length : Nat)
  /-- A block was written into a key. -/
  | keyed (name : String) (length : Nat)
  /-- A traversal met its first error. -/
  | failed (direction : Direction) (error : Error)
  /-- A type was registered. -/
  | registered (collection : String) (code : UInt32) (name : String)
  /-- A family was given a range of codes. -/
  | declared (collection family : String) (low high : UInt32)
  /-- A code was looked up that the family does not have. -/
  | outOfRange (collection : String) (code : UInt32) (family : String)
  /-- A registered type could not make a blank object. -/
  | unbuildable (collection : String) (code : UInt32) (name : String) (error : Error)
  /-- A payload did not decode. -/
  | corrupt (collection : String) (code : UInt32) (name : String) (error : Error)
  /-- An object was built, with the text dump of its fields. -/
  | built (collection : String) (code : UInt32) (name fields : String)
  deriving DecidableEq, Repr

/-- The value of an attribute. -/
inductive Attribute where
  | number (value : Nat)
  | flag (value : Bool)
  | text (value : String)
  deriving DecidableEq, Repr

/-- The kind of value that a message names. -/
def Shown.kindName : Shown → String
  | .u32 _ => "u32"
  | .u16 _ => "u16"
  | .u8 _ => "u8"
  | .bool _ => "bool"
  | .fixed _ _ => "fixed"
  | .block _ _ _ => "bytes"
  | .text _ => "string"

/-- The attributes that show a value. -/
def Shown.attributes : Shown → List (String × Attribute)
  | .u32 v => [("value", .number v.toNat)]
  | .u16 v => [("value", .number v.toNat)]
  | .u8 v => [("value", .number v.toNat)]
  | .bool v => [("value", .flag v)]
  | .fixed length head => [("len", .number length), ("head", .text (Hex.text head))]
  | .block length head owned =>
    [("len", .number length)] ++ (owned.map fun o => ("owned", Attribute.flag o)).toList ++
      [("head", .text (Hex.text head))]
  | .text v => [("value", .text v)]

namespace Event

/-- The level that an event is reported at. -/
def level : Event → Level
  | .field _ _ _ | .trailer _ _ | .measured _ _ | .summed _ _ | .keyed _ _
  | .built _ _ _ _ => .trace
  | .failed _ _ | .registered _ _ _ | .declared _ _ _ _ => .debug
  | .outOfRange _ _ _ | .corrupt _ _ _ _ => .warn
  | .unbuildable _ _ _ _ => .error

/-- The message of an event. -/
def message : Event → String
  | .field flow _ shown => shown.kindName ++ " " ++ flow.arrow
  | .trailer flow _ => "trailer " ++ flow.arrow
  | .measured _ _ => "bytes size"
  | .summed _ _ => "bytes crc"
  | .keyed _ _ => "key bytes"
  | .failed _ _ => "traversal failed"
  | .registered _ _ _ => "register type"
  | .declared _ _ _ _ => "declare group"
  | .outOfRange _ _ _ => "type code out of range"
  | .unbuildable _ _ _ _ => "cannot build object"
  | .corrupt _ _ _ _ => "corrupt payload"
  | .built _ _ _ _ => "built object"

/-- The attributes of an event, by name. -/
def attributes : Event → List (String × Attribute)
  | .field _ name shown => ("field", .text name) :: shown.attributes
  | .trailer _ crc => [("crc", .number crc.toNat)]
  | .measured name length | .summed name length | .keyed name length =>
    [("field", .text name), ("len", .number length)]
  | .failed direction error =>
    [("action", .text direction.name), ("error", .text error.message)]
  | .registered collection code name =>
    [("collection", .text collection), ("code", .number code.toNat), ("name", .text name)]
  | .declared collection family low high =>
    [("collection", .text collection), ("family", .text family), ("low", .number low.toNat),
      ("high", .number high.toNat)]
  | .outOfRange collection code family =>
    [("collection", .text collection), ("code", .number code.toNat), ("family", .text family)]
  | .unbuildable collection code name error | .corrupt collection code name error =>
    [("collection", .text collection), ("code", .number code.toNat), ("name", .text name),
      ("error", .text error.message)]
  | .built collection code name fields =>
    [("collection", .text collection), ("code", .number code.toNat), ("name", .text name),
      ("fields", .text fields)]

end Event

end RecordCodec
