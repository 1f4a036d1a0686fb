import RecordCodec.Conversion
import RecordCodec.Registry.Catalogue

/-!
# Making objects by type code

An object comes from a code, a payload, and the family through which it is asked for: the code must
be one that the family owns. The blank object of the code's type is made, and the payload is decoded
into it under the collection's context.

The family can be a single type (`Collection.makeTyped`); then the object must also be of that type.
-/

namespace RecordCodec

/-- A record with the type that it is an object of. -/
structure Object where
  tag : TypeTag
  record : Record

/-- What a lookup leaves: an object or an error, and its events. -/
structure Lookup (α : Type) where
  result : Except Error α
  log : List Event

namespace Collection

/-- The type of a code that the family owns. -/
def entry? (c : Collection) (family : TypeTag) (code : UInt32) : Option Registration :=
  if (c.catalogue.rangeOf family).any (·.contains code) then c.catalogue.find? code else none

/-- The report that an object was made, with the dump of its fields if that succeeds; a dump visits
the record. -/
def announce (c : Collection) (r : Registration) (record : Record) : Record × List Event :=
  let dump := record.dump Options.names
  match dump.result with
  | .error _ => (dump.record, dump.log)
  | .ok fields =>
    (dump.record, dump.log ++ [.built c.catalogue.name r.code r.name fields])

/-- Decodes a payload into a blank object. Where `traced` holds, the object is announced. -/
def fill (c : Collection) (traced : Bool) (r : Registration) (blank : Record) (payload : Bytes)
    (options : Mask) : Lookup Object :=
  let decoded := blank.decode payload c.catalogue.context options
  match decoded.result with
  | .error e =>
    ⟨.error (.corruptPayload r.code e),
      decoded.log ++ [.corrupt c.catalogue.name r.code r.name e]⟩
  | .ok () =>
    if traced then
      let announced := c.announce r decoded.record
      ⟨.ok ⟨r.tag, announced.1⟩, decoded.log ++ announced.2⟩
    else ⟨.ok ⟨r.tag, decoded.record⟩, decoded.log⟩

/-- Makes the object of a code, asked for through a family. -/
def make (c : Collection) (traced : Bool) (family : TypeTag) (code : UInt32) (payload : Bytes)
    (options : Mask) : Lookup Object :=
  match c.entry? family code with
  | none =>
    ⟨.error (.typeCode code family.typeName),
      [.outOfRange c.catalogue.name code family.typeName]⟩
  | some r =>
    match r.blank with
    | .error e => ⟨.error e, [.unbuildable c.catalogue.name code r.name e]⟩
    | .ok blank => c.fill traced r blank payload options

/-- Makes the object of a code, which must be of the given type. -/
def makeTyped (c : Collection) (traced : Bool) (type : TypeTag) (code : UInt32) (payload : Bytes)
    (options : Mask) : Lookup Record :=
  let made := c.make traced type code payload options
  match made.result with
  | .error e => ⟨.error e, made.log⟩
  | .ok object =>
    if object.tag = type then ⟨.ok object.record, made.log⟩
    else ⟨.error (.typeCode code type.typeName), made.log⟩

end Collection

end RecordCodec
