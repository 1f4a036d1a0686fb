import RecordCodec.Itinerary
import RecordCodec.Text.Utf8

/-!
# Comparing records

An order of records of one form, and what it is for two of them to have the same contents. Nothing
here is about bytes of a key; that keys are sorted in this order is a theorem.

Fields are compared one after another, and the first that are not the same decide. Numbers are
compared by their values, signed ones as the unsigned integers that they travel as. Blocks of fixed
length are compared byte by byte, other blocks and texts by their lengths first; in the same way,
sequences are compared by their counts before their items.

Contents are what a codec sees: names and blank items do not matter, nor does it matter who owns a
block. Records of different forms are not meant to be compared, and have nothing to say here.

## Main definitions

* `Record.order` — which of two records comes first.
* `Record.agrees` — the two records have the same contents.
-/

namespace RecordCodec

/-! ### Values -/

instance : (w : Signed) → DecidableEq w.Value
  | .i32 => inferInstanceAs (DecidableEq Int32)
  | .i16 => inferInstanceAs (DecidableEq Int16)
  | .i8 => inferInstanceAs (DecidableEq Int8)

/-- By length, and then byte by byte. -/
def orderByLength (bs cs : Bytes) : Ordering :=
  (compare bs.length cs.length).then (compare bs cs)

/-- Which of two values comes first. -/
def Kind.order : (k : Kind) → k.Value → k.Value → Ordering
  | .u32, v, w => compare v.toNat w.toNat
  | .u16, v, w => compare v.toNat w.toNat
  | .u8, v, w => compare v.toNat w.toNat
  | .bool, v, w => compare v w
  | .fixed, bs, cs => compare bs cs
  | .block _, b, c => orderByLength b.toBytes c.toBytes
  | .text, s, u => orderByLength (utf8 s) (utf8 u)

/-- The values are the same, whoever owns a block. -/
def Kind.agrees : (k : Kind) → k.Value → k.Value → Bool
  | .block _, b, c => b.agrees c
  | .u32, v, w | .u16, v, w | .u8, v, w | .bool, v, w | .fixed, v, w | .text, v, w => v == w

/-! ### Records -/

mutual

/-- Which of two fields comes first. -/
def Field.order : Field → Field → Ordering
  | .leaf _ k v, .leaf _ k' v' => if h : k' = k then k.order v (h ▸ v') else .eq
  | .signed _ w v, .signed _ w' v' =>
    if h : w' = w then w.carrier.order (w.toCarrier v) (w.toCarrier (h ▸ v')) else .eq
  | .nested _ body, .nested _ body' => body.order body'
  | .sequence _ items _, .sequence _ items' _ =>
    (compare items.length items'.length).then (orderItems items items')
  | _, _ => .eq
termination_by structural f => f

/-- Which of two records comes first. -/
def Record.order : Record → Record → Ordering
  | .strict fs, .strict gs => orderFields fs gs
  | _, _ => .eq
termination_by structural r => r

/-- Field by field. -/
def orderFields : List Field → List Field → Ordering
  | f :: fs, g :: gs => (f.order g).then (orderFields fs gs)
  | _, _ => .eq
termination_by structural fs => fs

/-- Item by item. -/
def orderItems : List Record → List Record → Ordering
  | r :: rs, s :: ss => (r.order s).then (orderItems rs ss)
  | _, _ => .eq
termination_by structural rs => rs

end

mutual

/-- The fields have the same contents. -/
def Field.agrees : Field → Field → Bool
  | .leaf _ k v, .leaf _ k' v' => if h : k' = k then k.agrees v (h ▸ v') else false
  | .signed _ w v, .signed _ w' v' => if h : w' = w then v == h ▸ v' else false
  | .nested _ body, .nested _ body' => body.agrees body'
  | .sequence _ items _, .sequence _ items' _ =>
    items.length == items'.length && itemsAgree items items'
  | _, _ => false
termination_by structural f => f

/-- The records have the same contents. -/
def Record.agrees : Record → Record → Bool
  | .strict fs, .strict gs => fieldsAgree fs gs
  | _, _ => false
termination_by structural r => r

/-- Field by field. -/
def fieldsAgree : List Field → List Field → Bool
  | f :: fs, g :: gs => f.agrees g && fieldsAgree fs gs
  | [], [] => true
  | _, _ => false
termination_by structural fs => fs

/-- Item by item. -/
def itemsAgree : List Record → List Record → Bool
  | r :: rs, s :: ss => r.agrees s && itemsAgree rs ss
  | [], [] => true
  | _, _ => false
termination_by structural rs => rs

end

end RecordCodec
