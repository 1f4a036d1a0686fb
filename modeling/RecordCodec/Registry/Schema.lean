import RecordCodec.Registry.Catalogue
import RecordCodec.Text.Quoted

/-!
# What a collection contains

The schema of a collection lists its types by code and its families in order of declaration, so it
does not show in which order the types were registered. `Schema.json` is the schema as one line of
JSON.
-/

namespace RecordCodec

/-- The contents of a collection, for display. -/
structure Schema where
  collection : String
  /-- Code and name of each type. -/
  types : List (UInt32 × String)
  /-- Name and range of each family. -/
  families : List (String × CodeRange)
  deriving DecidableEq, Repr

/-- The schema of a collection. -/
def Collection.schema (c : Collection) : Schema where
  collection := c.catalogue.name
  types := c.catalogue.types.map fun r => (r.code, r.name)
  families := c.catalogue.families.map fun f => (f.tag.typeName, f.range)

namespace Schema

/-- A JSON object of members whose values are JSON already. -/
def object (members : List (String × String)) : String :=
  "\x7b" ++ ",".intercalate (members.map fun m => Quoted.json m.1 ++ ":" ++ m.2) ++ "\x7d"

/-- A JSON array of items that are JSON already. -/
def array (items : List String) : String :=
  "[" ++ ",".intercalate items ++ "]"

/-- A number as JSON. -/
def number (n : UInt32) : String :=
  toString n.toNat

/-- The schema as JSON, without blanks. -/
def json (s : Schema) : String :=
  object [
    ("collection", Quoted.json s.collection),
    ("types", array (s.types.map fun t =>
      object [("code", number t.1), ("name", Quoted.json t.2)])),
    ("groups", array (s.families.map fun f =>
      object [("family", Quoted.json f.1), ("low", number f.2.low), ("high", number f.2.high)]))]

end Schema

end RecordCodec
