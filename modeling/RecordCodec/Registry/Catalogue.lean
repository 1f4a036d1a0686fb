import RecordCodec.Event
import RecordCodec.Record
import RecordCodec.Registry.Range

/-!
# Catalogues of record types

A catalogue collects what a registry will know: which type each code stands for, how a blank object
of that type is made, and which families own which ranges of codes. Types and families are told
apart by their tags, and one tag has at most one range, be it as a registered type or as a family.
The name of a tag is for messages only: different tags can have the same name.

## Main definitions

* `TypeId`, `TypeTag`, `Registration`, `Family`, `Catalogue` — the tables.
* `Catalogue.rangeOf` — the codes that a tag owns.
* `Catalogue.register`, `Catalogue.declare` — the two ways to add to a catalogue;
  `Catalogue.changeAll` — many changes, of which some may be refused.
* `Catalogue.gap?` — the first family that owns a code of no registered type.
* `Collection`, `Catalogue.build` — a catalogue in which no family has such a code.

A registered type owns just its own code, so its range is computed and not stored. What is refused
(`Misuse`) leaves the catalogue as it was.
-/

namespace RecordCodec

/-- The identity of a type. Types of one name have different numbers. -/
structure TypeId where
  typeName : String
  number : Nat
  deriving DecidableEq, Repr

/-- The first type of a name. -/
instance : Coe String TypeId where
  coe typeName := ⟨typeName, 0⟩

/-- A type or a family of types, told apart from others by its identity. -/
structure TypeTag where
  id : TypeId
  deriving DecidableEq, Repr

/-- The name of a type or a family. -/
def TypeTag.typeName (tag : TypeTag) : String :=
  tag.id.typeName

/-- A registered type. -/
structure Registration where
  code : UInt32
  name : String
  tag : TypeTag
  /-- A blank object of the type, or why none can be made. -/
  blank : Except Error Record

/-- A family of types, and the codes it owns. -/
structure Family where
  tag : TypeTag
  range : CodeRange
  deriving DecidableEq, Repr

/-- Registered types, in ascending order of their codes, and families, in order of declaration. -/
structure Catalogue where
  name : String
  /-- The context that payloads are decoded in. -/
  context : Context
  types : List Registration
  families : List Family

/-- Why a catalogue cannot be extended, or cannot be put to use. -/
inductive Catalogue.Misuse where
  /-- The code has a type. -/
  | codeTaken (collection : String) (code : UInt32) (old new : String)
  /-- The type has a range. -/
  | typeTaken (collection typeName : String)
  /-- The lowest code of a family is above its highest. -/
  | emptyRange (collection : String) (range : CodeRange)
  /-- The family has a range. -/
  | familyTaken (collection typeName : String)
  /-- Not all codes of a family have a type. -/
  | gap (collection typeName : String) (range : CodeRange) (covered : Nat)
  deriving DecidableEq, Repr

/-- The text of a mistake. -/
def Catalogue.Misuse.message : Catalogue.Misuse → String
  | .codeTaken collection code old new =>
    s!"{collection}: type code {code} registered twice ({old} and {new})"
  | .typeTaken collection typeName => s!"{collection}: type {typeName} registered twice"
  | .emptyRange collection range =>
    s!"{collection}: empty group range [{range.low}, {range.high}]"
  | .familyTaken collection typeName => s!"{collection}: group {typeName} declared twice"
  | .gap collection typeName range covered =>
    s!"{collection}: group {typeName} [{range.low}, {range.high}] covers {covered} " ++
      s!"registered codes, expected {range.width}"

/-- Puts a registration before the first one with a higher code. -/
def insertByCode (r : Registration) : List Registration → List Registration
  | [] => [r]
  | s :: rest => if r.code < s.code then r :: s :: rest else s :: insertByCode r rest

namespace Catalogue

/-- A catalogue without types and families. -/
def empty (name : String) : Catalogue :=
  ⟨name, .unknown, [], []⟩

/-- The type of a code. -/
def find? (c : Catalogue) (code : UInt32) : Option Registration :=
  c.types.find? (·.code == code)

/-- The codes that a type or family owns. -/
def rangeOf (c : Catalogue) (tag : TypeTag) : Option CodeRange :=
  match c.types.find? (·.tag == tag) with
  | some r => some (.single r.code)
  | none => (c.families.find? (·.tag == tag)).map (·.range)

/-- Sets the context that payloads are decoded in. -/
def withContext (c : Catalogue) (context : Context) : Catalogue :=
  { c with context := context }

/-- Adds a type under a code that has none. -/
def register (c : Catalogue) (r : Registration) : Except Misuse (Catalogue × Event) :=
  match c.find? r.code with
  | some old => .error (.codeTaken c.name r.code old.name r.name)
  | none =>
    if (c.rangeOf r.tag).isSome then .error (.typeTaken c.name r.tag.typeName)
    else .ok ({ c with types := insertByCode r c.types }, .registered c.name r.code r.name)

/-- Adds a family that owns the codes of a range. -/
def declare (c : Catalogue) (f : Family) : Except Misuse (Catalogue × Event) :=
  if f.range.high < f.range.low then .error (.emptyRange c.name f.range)
  else if (c.rangeOf f.tag).isSome then .error (.familyTaken c.name f.tag.typeName)
  else
    .ok ({ c with families := c.families ++ [f] },
      .declared c.name f.tag.typeName f.range.low f.range.high)

/-- One way to change a catalogue. -/
inductive Change where
  | context (c : Context)
  | register (r : Registration)
  | declare (f : Family)

/-- Changes a catalogue, and gives the events of the change. -/
def change (c : Catalogue) : Change → Except Misuse (Catalogue × List Event)
  | .context context => .ok (c.withContext context, [])
  | .register r => (c.register r).map fun new => (new.1, [new.2])
  | .declare f => (c.declare f).map fun new => (new.1, [new.2])

/-- Changes a catalogue step by step. A refused change is passed over; the list tells what became
of each change. -/
def changeAll (c : Catalogue) :
    List Change → List (Except Misuse Unit) × Catalogue × List Event
  | [] => ([], c, [])
  | ch :: chs =>
    match c.change ch with
    | .error m =>
      let others := c.changeAll chs
      (.error m :: others.1, others.2)
    | .ok new =>
      let others := new.1.changeAll chs
      (.ok () :: others.1, others.2.1, new.2 ++ others.2.2)

/-- The number of registered codes in a range. -/
def covered (c : Catalogue) (range : CodeRange) : Nat :=
  c.types.countP fun r => range.contains r.code

/-- The first family that owns a code of no registered type. -/
def gap? (c : Catalogue) : Option Family :=
  c.families.find? fun f => c.covered f.range != f.range.width

end Catalogue

/-- A catalogue that is ready for use: every code of every family has a type. -/
structure Collection where
  catalogue : Catalogue
  gap?_eq_none : catalogue.gap? = none

/-- The catalogue as a collection, unless a family has a gap. -/
def Catalogue.build (c : Catalogue) : Except Catalogue.Misuse Collection :=
  match h : c.gap? with
  | some f => .error (.gap c.name f.tag.typeName f.range (c.covered f.range))
  | none => .ok ⟨c, h⟩

end RecordCodec
