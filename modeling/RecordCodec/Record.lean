import RecordCodec.Kind

/-!
# Records

A record is the list of its fields with their values, in the order in which a codec visits them.
What a record type would compute in code of its own appears as a field here: a part that is visited
only in some traversals, a failure it declares, an error it takes back, a look at the traversal's
state. Such fields keep what they learned, so that a record after a traversal shows it.

## Main definitions

* `Field`, `Record` — mutually inductive, since records nest and repeat.
* `Guard` — when a guarded part is visited.
* `Sighting` — what a field that looks at the traversal sees.
* `Record.blank` — the record before anything is decoded into it: the same fields, without values.

## Two ways through the fields

A strict record stops at its first failing field. A lenient one visits every field, keeps each
result, and itself never fails. Most laws are about strict records; lenient ones are what makes the
stored error of a traversal necessary.
-/

namespace RecordCodec

/-- A condition on the traversal. -/
inductive Guard where
  | context (c : Context)
  | direction (d : Direction)
  | options (bits : Mask)
  deriving DecidableEq, Repr

/-- The condition holds in a state. -/
def Guard.holds {σ : Type} (t : Traversal σ) : Guard → Bool
  | .context c => t.context == c
  | .direction d => t.direction == d
  | .options bits => t.has bits

/-- What a field sees of the traversal that visits it. -/
structure Sighting where
  direction : Direction
  context : Context
  options : Mask
  /-- The unread input, where the codec reads any. -/
  unread : Option Nat
  /-- An error is stored. -/
  failed : Bool
  deriving DecidableEq, Repr

mutual

/-- One field of a record. -/
inductive Field where
  /-- A value that codecs handle themselves. -/
  | leaf (name : String) (kind : Kind) (value : kind.Value)
  /-- A signed integer. -/
  | signed (name : String) (width : Signed) (value : width.Value)
  /-- A record inside the record. -/
  | nested (name : String) (body : Record)
  /-- A sequence of records. Decoding fills copies of `blank`. -/
  | sequence (name : String) (items : List Record) (blank : Record)
  /-- Fields that are visited in place where the guard holds, and not at all elsewhere. -/
  | guarded (guard : Guard) (body : Record)
  /-- Fails, and stores the error in the traversal. -/
  | failing (error : Error)
  /-- Fails without storing the error. -/
  | raising (error : Error)
  /-- Takes the stored error away. Keeps what it took, visit by visit. -/
  | recovering (taken : List (Option Error))
  /-- Looks at the traversal. Keeps what it saw, visit by visit. -/
  | watching (seen : List Sighting)

/-- A record: its fields in the order of visits. -/
inductive Record where
  /-- Stops at the first field that fails. -/
  | strict (fields : List Field)
  /-- Visits all fields. Keeps their results, over all visits so far. -/
  | lenient (fields : List Field) (results : List (Except Error Unit))

end

/-- The fields of a record. -/
def Record.fields : Record → List Field
  | .strict fields | .lenient fields _ => fields

mutual

/-- The field without its value, and with an empty memory of visits. -/
def Field.blank : Field → Field
  | .leaf name kind value => .leaf name kind (kind.blank value)
  | .signed name width _ => .signed name width width.zero
  | .nested name body => .nested name body.blank
  | .sequence name _ item => .sequence name [] item
  | .guarded guard body => .guarded guard body.blank
  | .failing e => .failing e
  | .raising e => .raising e
  | .recovering _ => .recovering []
  | .watching _ => .watching []

/-- The record without its values: what decoding starts from. -/
def Record.blank : Record → Record
  | .strict fields => .strict (blankFields fields)
  | .lenient fields _ => .lenient (blankFields fields) []

/-- Each field without its value. -/
def blankFields : List Field → List Field
  | [] => []
  | f :: fs => f.blank :: blankFields fs

end

instance : Inhabited Record := ⟨.strict []⟩

end RecordCodec
