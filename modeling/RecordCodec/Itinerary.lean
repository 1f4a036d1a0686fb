import RecordCodec.Record

/-!
# Plain records and their itineraries

A plain record is pure data: leaves, signed integers, nested records and sequences, visited
strictly. What an encoder does with such a record depends only on the list of its stops, which are
the leaves in the order of visits, and the ends of nested records between them.

## Main definitions

* `Record.stops` — the itinerary of a record; `Record.leaves` — its leaves alone.
* `Record.alike` — two records of one form: they differ in values only.
* `Record.isPlain` — the record is plain, and the items of each sequence have the form of its blank
  item.

The count of a sequence is a stop like any other leaf, and a signed integer stops as its carrier.
Fields that are no data have no stops, so that an itinerary is defined for every record; it says
what a visit does for plain records only.
-/

namespace RecordCodec

/-- A leaf: name, kind and value. -/
structure Leaf where
  name : String
  kind : Kind
  value : kind.Value

/-- One stop of a visit. -/
inductive Stop where
  /-- A leaf. -/
  | leaf (l : Leaf)
  /-- The end of a nested record. -/
  | close

mutual

/-- The stops of one field. -/
def Field.stops : Field → List Stop
  | .leaf name kind value => [.leaf ⟨name, kind, value⟩]
  | .signed name width value => [.leaf ⟨name, width.carrier, width.toCarrier value⟩]
  | .nested _ body => body.stops ++ [.close]
  | .sequence name items _ =>
    .leaf ⟨name, .u32, UInt32.ofNat items.length⟩ :: itemStops items
  | .guarded _ _ | .failing _ | .raising _ | .recovering _ | .watching _ => []

/-- The stops of a record, in the order of visits. -/
def Record.stops : Record → List Stop
  | .strict fields | .lenient fields _ => fieldStops fields

/-- The stops of fields, one field after the other. -/
def fieldStops : List Field → List Stop
  | [] => []
  | f :: fs => f.stops ++ fieldStops fs

/-- The stops of the items of a sequence, each of which is a nested record. -/
def itemStops : List Record → List Stop
  | [] => []
  | r :: rs => r.stops ++ [.close] ++ itemStops rs

end

/-- The leaf of a stop that is one. -/
def Stop.leaf? : Stop → Option Leaf
  | .leaf l => some l
  | .close => none

/-- The leaves of a record, in the order of visits. -/
def Record.leaves (r : Record) : List Leaf :=
  r.stops.filterMap Stop.leaf?

/-- The length of a block whose length belongs to the record's form and not to its value. -/
def Kind.fixedLength : (k : Kind) → k.Value → Nat
  | .fixed, bs => bs.length
  | _, _ => 0

mutual

/-- The two fields differ in nothing but values. -/
def Field.alike : Field → Field → Bool
  | .leaf name kind value, .leaf name' kind' value' =>
    name == name' && kind == kind' && kind.fixedLength value == kind'.fixedLength value'
  | .signed name width _, .signed name' width' _ => name == name' && width == width'
  | .nested name body, .nested name' body' => name == name' && body.alike body'
  | .sequence name _ item, .sequence name' _ item' => name == name' && item.alike item'
  | _, _ => false

/-- The two records are plain and differ in nothing but values. The value of a sequence is the list
of its items. -/
def Record.alike : Record → Record → Bool
  | .strict fields, .strict fields' => fieldsAlike fields fields'
  | _, _ => false

/-- The two lists have fields in the same places, and these are alike. -/
def fieldsAlike : List Field → List Field → Bool
  | [], [] => true
  | f :: fs, f' :: fs' => f.alike f' && fieldsAlike fs fs'
  | _, _ => false

end

mutual

/-- The field is data. -/
def Field.isPlain : Field → Bool
  | .leaf _ _ _ => true
  | .signed _ _ _ => true
  | .nested _ body => body.isPlain
  | .sequence _ items item => item.isPlain && itemsPlain item items
  | .guarded _ _ | .failing _ | .raising _ | .recovering _ | .watching _ => false

/-- All fields of the record are data, visited strictly. -/
def Record.isPlain : Record → Bool
  | .strict fields => fieldsPlain fields
  | .lenient _ _ => false

/-- The fields are data. -/
def fieldsPlain : List Field → Bool
  | [] => true
  | f :: fs => f.isPlain && fieldsPlain fs

/-- The items are data, and alike the blank item. -/
def itemsPlain (item : Record) : List Record → Bool
  | [] => true
  | r :: rs => r.isPlain && item.alike r && itemsPlain item rs

end

end RecordCodec
