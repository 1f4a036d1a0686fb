import Mathlib.Data.List.Forall2
import RecordCodec.Proofs.Binary.Form
import RecordCodec.Proofs.Comparison
import RecordCodec.Proofs.Encodable

/-!
# An encoder sees contents only

Two records with the same contents may differ in the names of their fields, in the blank items of
their sequences and in who owns their blocks. An encoder is not interested in any of this. It stops
at the same places in both and finds the same values there, and so one of them has a binary form
just if the other has, and it is the same.

## Main definitions

* `Stop.Agrees` — two stops that are the same to an encoder.

## Main results

* `Record.sameStops` — records with the same contents have the same stops.
* `Record.layout_eq_of_agrees`, `Record.isEncodable_of_agrees` — and the same binary form.
-/

namespace RecordCodec

/-! ### Values -/

theorem Kind.layout_eq_of_agrees {k : Kind} {v w : k.Value} (h : k.agrees v w) :
    k.layout v = k.layout w := by
  cases k with
  | block flags =>
    have hbytes : v.toBytes = w.toBytes := eq_of_beq h
    simp only [layout, ByteBlock.length, hbytes]
  | u32 | u16 | u8 | bool | fixed | text => rw [eq_of_beq h]

theorem Kind.isEncodable_eq_of_agrees {k : Kind} {v w : k.Value} (h : k.agrees v w) :
    k.isEncodable v = k.isEncodable w := by
  cases k with
  | block flags =>
    have hbytes : v.toBytes = w.toBytes := eq_of_beq h
    rw [isEncodable, isEncodable, ByteBlock.length, ByteBlock.length, hbytes]
  | u32 | u16 | u8 | bool | fixed | text => rw [eq_of_beq h]

/-- A value agrees with itself. -/
theorem Kind.agrees_refl (k : Kind) (v : k.Value) : k.agrees v v := by
  cases k with
  | block flags => exact BEq.rfl
  | u32 | u16 | u8 | bool | fixed | text => exact BEq.rfl

/-! ### Stops -/

/-- The stops are the same to an encoder: two closes, or two leaves with the same contents. -/
inductive Stop.Agrees : Stop → Stop → Prop
  | leaf {name name' : String} {k : Kind} {v w : k.Value} :
    k.agrees v w → Stop.Agrees (.leaf ⟨name, k, v⟩) (.leaf ⟨name', k, w⟩)
  | close : Stop.Agrees .close .close

/-- Two itineraries are the same to an encoder. -/
abbrev SameStops (ss us : List Stop) : Prop :=
  List.Forall₂ Stop.Agrees ss us

namespace SameStops

variable {ss us ss' us' : List Stop}

theorem append (h : SameStops ss us) (h' : SameStops ss' us') :
    SameStops (ss ++ ss') (us ++ us') := by
  induction h with
  | nil => exact h'
  | cons hstop _ ih => exact .cons hstop ih

theorem closed (h : SameStops ss us) : SameStops (ss ++ [.close]) (us ++ [.close]) :=
  h.append (.cons .close .nil)

theorem layout_eq (h : SameStops ss us) :
    ss.flatMap Stop.layout = us.flatMap Stop.layout := by
  induction h with
  | nil => rfl
  | cons hstop _ ih =>
    rw [List.flatMap_cons, List.flatMap_cons, ih]
    cases hstop with
    | leaf hvalue => exact congrArg (· ++ _) (Kind.layout_eq_of_agrees hvalue)
    | close => rfl

theorem fit (h : SameStops ss us) (hfit : LeavesFit Leaf.isEncodable ss) :
    LeavesFit Leaf.isEncodable us := by
  induction h with
  | nil => exact .nil
  | cons hstop _ ih =>
    refine .cons (fun l hl => ?_) (ih hfit.tail)
    cases hstop with
    | leaf hvalue =>
      cases hl
      exact (Kind.isEncodable_eq_of_agrees hvalue).symm.trans hfit.head
    | close => cases hl

end SameStops

/-! ### Records -/

theorem Signed.agrees_self (w : Signed) {v v' : w.Value} (h : v == v') :
    w.carrier.agrees (w.toCarrier v) (w.toCarrier v') := by
  rw [eq_of_beq h]
  exact Kind.agrees_refl _ _

theorem sameStops_count (name name' : String) {items items' : List Record}
    (h : items.length = items'.length) :
    Stop.Agrees (.leaf ⟨name, .u32, UInt32.ofNat items.length⟩)
      (.leaf ⟨name', .u32, UInt32.ofNat items'.length⟩) := by
  rw [h]
  exact .leaf (Kind.agrees_refl _ _)

mutual

theorem Field.sameStops : ∀ {f g : Field}, f.agrees g →
    SameStops f.stops g.stops ∧ g.isData ∧
      g.everySequence fewEnough = f.everySequence fewEnough
  | .leaf _ k v, .leaf _ k' v', h => by
    rw [Field.agrees] at h
    split at h
    · next heq =>
      subst heq
      exact ⟨.cons (.leaf h) .nil, rfl, rfl⟩
    · cases h
  | .signed _ w v, .signed _ w' v', h => by
    rw [Field.agrees] at h
    split at h
    · next heq =>
      subst heq
      exact ⟨.cons (.leaf (w'.agrees_self h)) .nil, rfl, rfl⟩
    · cases h
  | .nested _ _, .nested _ _, h => by
    obtain ⟨hstops, hrest⟩ := Record.sameStops h
    exact ⟨hstops.closed, hrest⟩
  | .sequence name items _, .sequence name' items' _, h => by
    rw [Field.agrees, Bool.and_eq_true, beq_iff_eq] at h
    obtain ⟨hlength, hitems⟩ := h
    obtain ⟨hstops, hdata, hfew⟩ := itemsSameStops hitems
    refine ⟨.cons (sameStops_count name name' hlength) hstops, hdata, ?_⟩
    simp only [Field.everySequence, fewEnough, hlength, hfew]

/-- **Records with the same contents** have the same stops, and as much else in common as an encoder
asks for. -/
theorem Record.sameStops : ∀ {r s : Record}, r.agrees s →
    SameStops r.stops s.stops ∧ s.isData ∧
      s.everySequence fewEnough = r.everySequence fewEnough
  | .strict _, .strict _, h => fieldsSameStops h

theorem fieldsSameStops : ∀ {fs gs : List Field}, fieldsAgree fs gs →
    SameStops (fieldStops fs) (fieldStops gs) ∧ fieldsData gs ∧
      everySequenceOfFields fewEnough gs = everySequenceOfFields fewEnough fs
  | [], [], _ => ⟨.nil, rfl, rfl⟩
  | f :: fs, g :: gs, h => by
    rw [fieldsAgree, Bool.and_eq_true] at h
    obtain ⟨hstops, hdata, hfew⟩ := Field.sameStops h.1
    obtain ⟨hstops', hdata', hfew'⟩ := fieldsSameStops h.2
    refine ⟨hstops.append hstops', Bool.and_eq_true_iff.mpr ⟨hdata, hdata'⟩, ?_⟩
    rw [everySequenceOfFields, everySequenceOfFields, hfew, hfew']

theorem itemsSameStops : ∀ {rs ss : List Record}, itemsAgree rs ss →
    SameStops (itemStops rs) (itemStops ss) ∧ itemsData ss ∧
      everySequenceOfItems fewEnough ss = everySequenceOfItems fewEnough rs
  | [], [], _ => ⟨.nil, rfl, rfl⟩
  | r :: rs, s :: ss, h => by
    rw [itemsAgree, Bool.and_eq_true] at h
    obtain ⟨hstops, hdata, hfew⟩ := Record.sameStops h.1
    obtain ⟨hstops', hdata', hfew'⟩ := itemsSameStops h.2
    refine ⟨hstops.closed.append hstops', Bool.and_eq_true_iff.mpr ⟨hdata, hdata'⟩, ?_⟩
    rw [everySequenceOfItems, everySequenceOfItems, hfew, hfew']

end

/-- **The binary form** is that of the contents. -/
theorem Record.layout_eq_of_agrees {r s : Record} (h : r.agrees s) : s.layout = r.layout := by
  rw [layout_eq_flatMap, layout_eq_flatMap]
  exact (Record.sameStops h).1.layout_eq.symm

/-- Whether there is one is a matter of contents as well. -/
theorem Record.isEncodable_of_agrees {r s : Record} (h : r.agrees s) (hr : r.isEncodable) :
    s.isEncodable := by
  obtain ⟨hstops, hdata, hfew⟩ := Record.sameStops h
  obtain ⟨-, hfit, hcounts⟩ := Record.isSerial_iff.mp hr
  exact Record.isSerial_iff.mpr ⟨hdata, hstops.fit hfit, hfew.trans hcounts⟩

end RecordCodec
