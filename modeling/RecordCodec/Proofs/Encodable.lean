import RecordCodec.Binary.Layout
import RecordCodec.Key.Layout

/-!
# Records that have a serial form

Not every record of data can be written. A length field has 32 bits, and a block that ends at its
terminator must not contain it; keys have length fields for all blocks and know no terminators. A
sequence whose count does not fit 32 bits would be written with a wrong one.

An encoder does not look at the blank item of a sequence, so a record can have a serial form without
being plain: its items may differ in form from the blank one, and from each other. What is lost is
only that a decoder can read it back.

## Main definitions

* `Record.isData` — the record consists of values, whatever its blank items are.
* `LeavesFit` — a condition on the leaves along an itinerary.
* `Record.everySequence` — a condition on the items of all sequences in a record, however deep.
* `Record.isEncodable` — the record has a binary form.
* `Record.isKeyable` — the record has a key.
-/

namespace RecordCodec

/-! ### Data -/

mutual

/-- The field has a value, or fields and items that do. -/
def Field.isData : Field → Bool
  | .leaf _ _ _ => true
  | .signed _ _ _ => true
  | .nested _ body => body.isData
  | .sequence _ items _ => itemsData items
  | .guarded _ _ | .failing _ | .raising _ | .recovering _ | .watching _ => false

/-- All fields of the record are data, visited strictly. Blank items are not asked for. -/
def Record.isData : Record → Bool
  | .strict fields => fieldsData fields
  | .lenient _ _ => false

/-- The fields are data. -/
def fieldsData : List Field → Bool
  | [] => true
  | f :: fs => f.isData && fieldsData fs

/-- The items are data, of any form. -/
def itemsData : List Record → Bool
  | [] => true
  | r :: rs => r.isData && itemsData rs

end

mutual

theorem Field.isData_of_isPlain : ∀ {f : Field}, f.isPlain → f.isData
  | .leaf _ _ _, _ => rfl
  | .signed _ _ _, _ => rfl
  | .nested _ _, h => Record.isData_of_isPlain h
  | .sequence _ _ _, h => by
    rw [Field.isPlain, Bool.and_eq_true] at h
    exact itemsData_of_itemsPlain h.2

/-- A plain record is data. -/
theorem Record.isData_of_isPlain : ∀ {r : Record}, r.isPlain → r.isData
  | .strict _, h => fieldsData_of_fieldsPlain h

theorem fieldsData_of_fieldsPlain : ∀ {fs : List Field}, fieldsPlain fs → fieldsData fs
  | [], _ => rfl
  | f :: fs, h => by
    rw [fieldsPlain, Bool.and_eq_true] at h
    rw [fieldsData, Bool.and_eq_true]
    exact ⟨Field.isData_of_isPlain h.1, fieldsData_of_fieldsPlain h.2⟩

theorem itemsData_of_itemsPlain : ∀ {rs : List Record} {blank : Record},
    itemsPlain blank rs → itemsData rs
  | [], _, _ => rfl
  | r :: rs, blank, h => by
    rw [itemsPlain, Bool.and_eq_true, Bool.and_eq_true] at h
    rw [itemsData, Bool.and_eq_true]
    exact ⟨Record.isData_of_isPlain h.1.1, itemsData_of_itemsPlain h.2⟩

end

/-! ### Leaves -/

/-- The value has a binary form. -/
def Kind.isEncodable : (k : Kind) → k.Value → Bool
  | .block flags, b =>
    if meets flags BlockFlags.terminated then !b.toBytes.contains 0
    else b.length < UInt32.size
  | .text, s => (utf8 s).length < UInt32.size
  | _, _ => true

/-- The leaf has a binary form. -/
def Leaf.isEncodable (l : Leaf) : Bool :=
  l.kind.isEncodable l.value

/-- The value has a form in keys. -/
def Kind.isKeyable : (k : Kind) → k.Value → Bool
  | .block _, b => b.length < UInt32.size
  | .text, s => (utf8 s).length < UInt32.size
  | _, _ => true

/-- The leaf has a form in keys. -/
def Leaf.isKeyable (l : Leaf) : Bool :=
  l.kind.isKeyable l.value

theorem mem_filterMap_leaf? {ss : List Stop} {l : Leaf} :
    l ∈ ss.filterMap Stop.leaf? ↔ Stop.leaf l ∈ ss := by
  rw [List.mem_filterMap]
  constructor
  · rintro ⟨s, hs, hl⟩
    cases s with
    | leaf l' =>
      obtain rfl : l' = l := Option.some.inj hl
      exact hs
    | close => exact absurd hl nofun
  · intro h
    exact ⟨.leaf l, h, rfl⟩

theorem Record.mem_leaves {r : Record} {l : Leaf} : l ∈ r.leaves ↔ Stop.leaf l ∈ r.stops :=
  mem_filterMap_leaf?

/-- The leaves among the stops are all fit. -/
def LeavesFit (fit : Leaf → Bool) (ss : List Stop) : Prop :=
  ∀ l, Stop.leaf l ∈ ss → fit l

namespace LeavesFit

variable {fit : Leaf → Bool} {s : Stop} {ss ss' : List Stop}

theorem head {l : Leaf} (h : LeavesFit fit (.leaf l :: ss)) : fit l :=
  h l List.mem_cons_self

theorem tail (h : LeavesFit fit (s :: ss)) : LeavesFit fit ss := by
  intro l hl
  exact h l (List.mem_cons_of_mem s hl)

theorem left (h : LeavesFit fit (ss ++ ss')) : LeavesFit fit ss := by
  intro l hl
  exact h l (List.mem_append_left ss' hl)

theorem right (h : LeavesFit fit (ss ++ ss')) : LeavesFit fit ss' := by
  intro l hl
  exact h l (List.mem_append_right ss hl)

theorem nil : LeavesFit fit [] :=
  nofun

theorem cons (h : ∀ l, s = .leaf l → fit l) (h' : LeavesFit fit ss) :
    LeavesFit fit (s :: ss) := by
  intro l hl
  rcases List.mem_cons.mp hl with hhead | htail
  · exact h l hhead.symm
  · exact h' l htail

theorem close (h : LeavesFit fit ss) : LeavesFit fit (.close :: ss) :=
  .cons (fun _ => nofun) h

theorem append (h : LeavesFit fit ss) (h' : LeavesFit fit ss') : LeavesFit fit (ss ++ ss') := by
  intro l hl
  rcases List.mem_append.mp hl with hfront | hback
  · exact h l hfront
  · exact h' l hback

theorem of_mem (h : LeavesFit fit ss) (hs : s ∈ ss) {l : Leaf} (hl : s = .leaf l) : fit l := by
  subst hl
  exact h l hs

end LeavesFit

/-! ### Sequences -/

mutual

/-- The items of every sequence in the field satisfy a condition. -/
def Field.everySequence (p : List Record → Bool) : Field → Bool
  | .nested _ body => body.everySequence p
  | .sequence _ items _ => p items && everySequenceOfItems p items
  | .guarded _ body => body.everySequence p
  | .leaf _ _ _ | .signed _ _ _ | .failing _ | .raising _ | .recovering _ | .watching _ => true

/-- The items of every sequence in the record satisfy a condition. -/
def Record.everySequence (p : List Record → Bool) : Record → Bool
  | .strict fields | .lenient fields _ => everySequenceOfFields p fields

/-- The items of every sequence in the fields satisfy a condition. -/
def everySequenceOfFields (p : List Record → Bool) : List Field → Bool
  | [] => true
  | f :: fs => f.everySequence p && everySequenceOfFields p fs

/-- The items of every sequence inside the items of a sequence satisfy a condition. -/
def everySequenceOfItems (p : List Record → Bool) : List Record → Bool
  | [] => true
  | r :: rs => r.everySequence p && everySequenceOfItems p rs

end

/-- The count of a sequence fits its length field. -/
def fewEnough (items : List Record) : Bool :=
  items.length < UInt32.size

/-! ### Records -/

/-- The record is data, all its leaves are fit for a serial form, and all its counts are. -/
def Record.isSerial (fit : Leaf → Bool) (r : Record) : Bool :=
  r.isData && r.leaves.all fit && r.everySequence fewEnough

/-- The record has a binary form. -/
@[reducible] def Record.isEncodable (r : Record) : Bool :=
  r.isSerial Leaf.isEncodable

/-- The record has a key. -/
@[reducible] def Record.isKeyable (r : Record) : Bool :=
  r.isSerial Leaf.isKeyable

theorem Record.isSerial_iff {fit : Leaf → Bool} {r : Record} :
    r.isSerial fit ↔
      r.isData ∧ LeavesFit fit r.stops ∧ r.everySequence fewEnough := by
  rw [Record.isSerial, LeavesFit]
  simp only [Bool.and_eq_true, List.all_eq_true, Record.mem_leaves, and_assoc]

/-- A record with a part of every shape, for examples. -/
def Record.specimen : Record :=
  .strict [.leaf "id" .u32 7, .signed "delta" .i16 (-2), .leaf "flag" .bool true,
    .leaf "tag" .fixed [1, 2], .leaf "blob" (.block BlockFlags.terminated) (.owned [5]),
    .leaf "name" .text "ab", .nested "inner" (.strict [.leaf "x" .u16 9]),
    .sequence "items" [.strict [.leaf "k" .u8 1], .strict [.leaf "k" .u8 2]]
      (.strict [.leaf "k" .u8 0])]

example : Record.specimen.layout =
    [0, 0, 0, 7, 255, 254, 1, 1, 2, 5, 0, 0, 0, 0, 2, 97, 98, 0, 9, 0, 0, 0, 2, 1, 2] := by
  decide

end RecordCodec
