import RecordCodec.Proofs.Alike
import RecordCodec.Proofs.Comparison
import RecordCodec.Proofs.Encodable
import RecordCodec.Proofs.Reads
import RecordCodec.Visit

/-!
# Reading back what was written

A decoder visits a record whose values are of no account, and finds the values of another record of
the same form in its input. `Record.deliver` is the record that it then leaves: the form of the one
and the values of the other.

That this is so follows for whole records from what the decoder does at a single leaf and at a
single close, which `Recovers` states. It speaks of the input only through a predicate `ready bytes`
on states: the bytes lie ahead of the decoder. A decoder is free to keep in `ready` whatever else it
wants to know of its state.

What follows the bytes of a part is always arbitrary. That is the framing that lets parts be put one
behind the other: every part finds its own bytes and leaves the rest.

## Main definitions

* `Record.deliver` — a record filled with the values of another.
* `Fills` — a visit that finds the bytes of its part ahead, and fills it.
* `Recovers` — a decoder's account of leaves and closes.

## Main results

* `Record.agrees_deliver`, `Record.alike_deliver` — such a record has the contents of the other, and
  the form that it had before.
* `Fills.cons` — a part is filled, and then the parts behind it.
* `Recovers.visit_record` — a record is filled with the values that the input was written from.
-/

namespace RecordCodec

/-! ### Delivered values -/

/-- The value that a decoder gives: the one that was written, where a block is owned as its flags
say. -/
def Kind.delivered : (k : Kind) → k.Value → k.Value
  | .block flags, b => ByteBlock.ofBytes (meets flags BlockFlags.owned) b.toBytes
  | .u32, v | .u16, v | .u8, v | .bool, v | .fixed, v | .text, v => v

mutual

/-- The second field, with the values of the first. -/
def Field.deliver : Field → Field → Field
  | .leaf name kind v, _ => .leaf name kind (kind.delivered v)
  | .signed name w v, _ => .signed name w v
  | .nested name body, .nested _ target => .nested name (body.deliver target)
  | .sequence name items _, .sequence _ _ item => .sequence name (deliverItems items item) item
  | _, f => f
termination_by structural f => f

/-- The second record, with the values of the first. -/
def Record.deliver : Record → Record → Record
  | .strict fs, .strict gs => .strict (deliverFields fs gs)
  | _, r => r
termination_by structural r => r

/-- The second fields, with the values of the first. -/
def deliverFields : List Field → List Field → List Field
  | f :: fs, g :: gs => f.deliver g :: deliverFields fs gs
  | [], gs => gs
  | _ :: _, [] => []
termination_by structural fs => fs

/-- Copies of an item, one for each record, with its values. -/
def deliverItems : List Record → Record → List Record
  | [], _ => []
  | r :: rs, item => r.deliver item :: deliverItems rs item
termination_by structural rs => rs

end

/-! ### Delivered contents -/

theorem Kind.agrees_delivered (k : Kind) (v : k.Value) : k.agrees v (k.delivered v) := by
  cases k with
  | block flags =>
    rw [agrees, delivered, ByteBlock.agrees, ByteBlock.toBytes_ofBytes]
    exact BEq.rfl
  | u32 | u16 | u8 | bool | fixed | text => exact BEq.rfl

theorem length_deliverItems (rs : List Record) (item : Record) :
    (deliverItems rs item).length = rs.length := by
  induction rs with
  | nil => rfl
  | cons r rs ih => rw [deliverItems, List.length_cons, List.length_cons, ih]

mutual

theorem Field.agrees_deliver : ∀ {f g : Field}, f.isPlain → f.alike g → f.agrees (f.deliver g)
  | .leaf _ k v, .leaf _ _ _, _, _ => by
    rw [Field.deliver, Field.agrees, dif_pos rfl]
    exact k.agrees_delivered v
  | .signed _ w v, .signed _ _ _, _, _ => by
    rw [Field.deliver, Field.agrees, dif_pos rfl]
    exact BEq.rfl
  | .nested _ body, .nested _ target, hplain, halike => by
    rw [Field.alike, Bool.and_eq_true] at halike
    exact Record.agrees_deliver hplain halike.2
  | .sequence _ items _, .sequence _ _ item', hplain, halike => by
    rw [Field.isPlain, Bool.and_eq_true] at hplain
    rw [Field.alike, Bool.and_eq_true] at halike
    rw [Field.deliver, Field.agrees, length_deliverItems, Bool.and_eq_true]
    exact ⟨BEq.rfl, itemsAgree_deliverItems hplain.2 halike.2⟩

/-- **What is delivered has the contents** of what was written. -/
theorem Record.agrees_deliver : ∀ {r s : Record}, r.isPlain → r.alike s → r.agrees (r.deliver s)
  | .strict _, .strict _, hplain, halike => fieldsAgree_deliverFields hplain halike

theorem fieldsAgree_deliverFields : ∀ {fs gs : List Field}, fieldsPlain fs →
    fieldsAlike fs gs → fieldsAgree fs (deliverFields fs gs)
  | [], [], _, _ => rfl
  | f :: fs, g :: gs, hplain, halike => by
    rw [fieldsPlain, Bool.and_eq_true] at hplain
    rw [fieldsAlike, Bool.and_eq_true] at halike
    rw [deliverFields, fieldsAgree, Bool.and_eq_true]
    exact ⟨Field.agrees_deliver hplain.1 halike.1,
      fieldsAgree_deliverFields hplain.2 halike.2⟩

theorem itemsAgree_deliverItems : ∀ {rs : List Record} {item target : Record},
    itemsPlain item rs → item.alike target → itemsAgree rs (deliverItems rs target)
  | [], _, _, _, _ => rfl
  | r :: rs, item, target, hplain, halike => by
    rw [itemsPlain, Bool.and_eq_true, Bool.and_eq_true] at hplain
    rw [deliverItems, itemsAgree, Bool.and_eq_true]
    exact ⟨Record.agrees_deliver hplain.1.1 (Record.alike_of_alike hplain.1.2 halike),
      itemsAgree_deliverItems hplain.2 halike⟩

end

/-! ### Delivered forms -/

theorem Kind.fixedLength_delivered (k : Kind) (v : k.Value) :
    k.fixedLength (k.delivered v) = k.fixedLength v := by
  cases k <;> rfl

mutual

theorem Field.alike_deliver : ∀ {f g : Field}, f.alike g → g.alike (f.deliver g)
  | .leaf _ k v, .leaf _ _ _, h => by
    simp only [Field.alike, Bool.and_eq_true, beq_iff_eq] at h
    obtain ⟨⟨rfl, rfl⟩, hlength⟩ := h
    simp only [Field.deliver, Field.alike, Bool.and_eq_true, beq_iff_eq, true_and]
    rw [k.fixedLength_delivered]
    exact hlength.symm
  | .signed _ _ _, .signed _ _ _, h => by
    rw [Field.deliver]
    exact Field.alike_symm h
  | .nested _ _, .nested _ _, h => by
    rw [Field.alike, Bool.and_eq_true, beq_iff_eq] at h
    rw [Field.deliver, Field.alike, Bool.and_eq_true, beq_iff_eq]
    exact ⟨h.1.symm, Record.alike_deliver h.2⟩
  | .sequence _ _ _, .sequence _ _ _, h => by
    rw [Field.alike, Bool.and_eq_true, beq_iff_eq] at h
    rw [Field.deliver, Field.alike, Bool.and_eq_true, beq_iff_eq]
    exact ⟨h.1.symm, Record.alike_of_alike h.2 h.2⟩

/-- **What is delivered has the form** of what was filled. -/
theorem Record.alike_deliver : ∀ {r s : Record}, r.alike s → s.alike (r.deliver s)
  | .strict _, .strict _, h => fieldsAlike_deliverFields h

theorem fieldsAlike_deliverFields : ∀ {fs gs : List Field},
    fieldsAlike fs gs → fieldsAlike gs (deliverFields fs gs)
  | [], [], _ => rfl
  | f :: fs, g :: gs, h => by
    rw [fieldsAlike, Bool.and_eq_true] at h
    rw [deliverFields, fieldsAlike, Bool.and_eq_true]
    exact ⟨Field.alike_deliver h.1, fieldsAlike_deliverFields h.2⟩

end

/-! ### Filling one part after another -/

variable {σ : Type}

/-- A visit that finds the bytes of some stops ahead fills its part, reports the stops, and leaves
the rest of the input. -/
def Fills {α : Type} (ready : Bytes → Traversal σ → Prop) (token : Stop → Bytes)
    (events : Stop → List Event) (visit : Traversal σ → Visited σ α) (stops : List Stop)
    (filled : α) : Prop :=
  ∀ rest t, ready (stops.flatMap token ++ rest) t →
    ∃ t', visit t = ⟨.ok (), filled, t', stops.flatMap events⟩ ∧ ready rest t'

namespace Fills

variable {α β : Type} {ready : Bytes → Traversal σ → Prop} {token : Stop → Bytes}
  {events : Stop → List Event} {visit : Traversal σ → Visited σ α} {ss ss' : List Stop} {a : α}

/-- What is filled may be put into something else. -/
theorem map (f : α → β) (h : Fills ready token events visit ss a) :
    Fills ready token events (fun t => (visit t).map f) ss (f a) := by
  intro rest t ht
  obtain ⟨t', hvisit, ht'⟩ := h rest t ht
  refine ⟨t', ?_, ht'⟩
  simp only [hvisit, Visited.map]

/-- **A part and the parts behind it.** Every part finds its own bytes. -/
theorem cons {visits both : Traversal σ → Visited σ (List α)} {as : List α}
    (h : Fills ready token events visit ss a) (h' : Fills ready token events visits ss' as)
    (hboth : ∀ {t s t' log log'}, visit t = ⟨.ok (), a, s, log⟩ →
      visits s = ⟨.ok (), as, t', log'⟩ → both t = ⟨.ok (), a :: as, t', log ++ log'⟩) :
    Fills ready token events both (ss ++ ss') (a :: as) := by
  intro rest t ht
  rw [List.flatMap_append, List.append_assoc] at ht
  obtain ⟨s, hvisit, hs⟩ := h _ t ht
  obtain ⟨t', hvisits, ht'⟩ := h' rest s hs
  refine ⟨t', ?_, ht'⟩
  rw [hboth hvisit hvisits, List.flatMap_append]

end Fills

/-! ### What is asked of a decoder -/

variable [Codec σ]

/-- A leaf whose bytes are read, and then what ends it. -/
theorem visitLeaf_of_reads {ready : Bytes → Traversal σ → Prop} {k : Kind} {name : String}
    {old v : k.Value} {data border : Bytes} {log log' : List Event}
    (hvisit : Act.Reads ready (Codec.visit k name old) v data log)
    (hclose : Act.Reads ready Codec.close () border log') {rest : Bytes} {t : Traversal σ}
    (ht : ready (data ++ border ++ rest) t) :
    ∃ t', visitLeaf k name old t = ⟨.ok (), v, t', log ++ log'⟩ ∧ ready rest t' := by
  rw [List.append_assoc] at ht
  obtain ⟨s, hv, hs⟩ := hvisit _ t ht
  obtain ⟨t', hc, ht'⟩ := hclose rest s hs
  refine ⟨t', ?_, ht'⟩
  simp only [visitLeaf, hv, Visited.followedBy, hc]

/-- The items take bytes of the input, each of them, in a form where stops have these tokens. -/
def substantial (token : Stop → Bytes) (items : List Record) : Bool :=
  items.all fun item => !((item.stops ++ [Stop.close]).flatMap token).isEmpty

/-- How a decoder handles leaves and closes of which the input has the bytes: `ready bytes` are the
states with `bytes` ahead, `token` the bytes of a stop, `fit` the leaves in question, and `events`
what is reported of a stop. -/
structure Recovers (ready : Bytes → Traversal σ → Prop) (token : Stop → Bytes)
    (fit : Leaf → Bool) (events : Stop → List Event) : Prop where
  clean : ∀ {bs t}, ready bs t → t.error = none
  decodes : ∀ {bs t}, ready bs t → t.direction = .decode
  /-- The decoder does not take its input for shorter than it is. -/
  unread : ∀ {bs t left}, ready bs t → Codec.unread t.store = some left → bs.length ≤ left
  /-- A leaf gets the value that its bytes were made from. -/
  leaf : ∀ (l : Leaf) (old : l.kind.Value) {rest t}, fit l →
    l.kind.fixedLength l.value = l.kind.fixedLength old → ready (token (.leaf l) ++ rest) t →
    ∃ t', visitLeaf l.kind l.name old t =
      ⟨.ok (), l.kind.delivered l.value, t', events (.leaf l)⟩ ∧ ready rest t'
  /-- A close passes over its bytes. -/
  close : ∀ {rest t}, ready (token .close ++ rest) t →
    ∃ t', (Codec.close : Act σ Unit) t = ⟨.ok (), t', events .close⟩ ∧ ready rest t'

/-- Each item takes a byte at least, so there are no more items than bytes. -/
theorem length_le_of_substantial {token : Stop → Bytes} {items : List Record}
    (h : substantial token items) : items.length ≤ ((itemStops items).flatMap token).length := by
  induction items with
  | nil => exact Nat.le_refl 0
  | cons r rs ih =>
    rw [substantial, List.all_cons, Bool.and_eq_true, Bool.not_eq_true'] at h
    have hr : 0 < ((r.stops ++ [Stop.close]).flatMap token).length := by
      rw [List.length_pos_iff]
      intro hnil
      rw [hnil] at h
      exact absurd h.1 (by decide)
    have hrs := ih h.2
    rw [itemStops, List.flatMap_append, List.length_append, List.length_cons]
    omega

namespace Recovers

variable {ready : Bytes → Traversal σ → Prop} {token : Stop → Bytes} {fit : Leaf → Bool}
  {events : Stop → List Event}

/-! ### Parts of a record -/

section

variable (law : Recovers ready token fit events)

include law

theorem fills_leaf {l : Leaf} {old : l.kind.Value} (hfit : fit l)
    (hlen : l.kind.fixedLength l.value = l.kind.fixedLength old) :
    Fills ready token events (visitLeaf l.kind l.name old) [.leaf l]
      (l.kind.delivered l.value) := by
  intro rest t ht
  rw [List.flatMap_cons, List.flatMap_nil, List.append_nil] at ht
  rw [List.flatMap_cons, List.flatMap_nil, List.append_nil]
  exact law.leaf l old hfit hlen ht

theorem fills_nested {visit : Traversal σ → Visited σ Record} {ss : List Stop} {r r' : Record}
    (h : Fills ready token events visit ss r') :
    Fills ready token events (visitNested visit r) (ss ++ [.close]) r' := by
  intro rest t ht
  rw [List.flatMap_append, List.append_assoc] at ht
  obtain ⟨s, hvisit, hs⟩ := h _ t ht
  rw [List.flatMap_cons, List.flatMap_nil, List.append_nil] at hs
  obtain ⟨t', hclose, ht'⟩ := law.close hs
  refine ⟨t', ?_, ht'⟩
  rw [visitNested]
  simp only [law.clean ht, hvisit, Visited.followedBy, hclose, List.flatMap_append,
    List.flatMap_cons, List.flatMap_nil, List.append_nil]

/-- A signed integer is filled as its carrier. -/
theorem fills_signed {w : Signed} {name : String} {v old : w.Value}
    (hfit : fit ⟨name, w.carrier, w.toCarrier v⟩) :
    Fills ready token events (visitSigned w name old)
      [.leaf ⟨name, w.carrier, w.toCarrier v⟩] v := by
  intro rest t ht
  have hlen : w.carrier.fixedLength (w.toCarrier v) =
      w.carrier.fixedLength (w.toCarrier old) := by
    cases w <;> rfl
  have hsame : w.carrier.delivered (w.toCarrier v) = w.toCarrier v := by
    cases w <;> rfl
  obtain ⟨t', hvisit, ht'⟩ := law.fills_leaf (l := ⟨name, w.carrier, w.toCarrier v⟩) hfit hlen
    rest t ht
  refine ⟨t', ?_, ht'⟩
  rw [visitSigned]
  simp only [hvisit, hsame, Signed.ofCarrier_toCarrier]

/-- A count that the input bears out is not too great. -/
theorem shortage_eq_none {bs : Bytes} {t : Traversal σ} {n : Nat} (ht : ready bs t)
    (hn : n ≤ bs.length) : shortage n t = none := by
  rw [shortage]
  cases hleft : Codec.unread t.store with
  | none => rfl
  | some left =>
    have hle := law.unread ht hleft
    rw [Option.filter_some, decide_eq_false (by omega)]
    rfl

/-- A sequence is filled if as many copies of its blank item are as the count says. -/
theorem fills_sequence {name : String} {items olds filled : List Record} {item : Record}
    (hfit : fit ⟨name, .u32, UInt32.ofNat items.length⟩) (hfew : fewEnough items)
    (hsub : substantial token items)
    (h : Fills ready token events (visitCopies (visitNested (Record.visit item) item) items.length)
      (itemStops items) filled) :
    Fills ready token events (Field.visit (.sequence name olds item))
      (.leaf ⟨name, .u32, UInt32.ofNat items.length⟩ :: itemStops items)
      (.sequence name filled item) := by
  intro rest t ht
  have hcount : (UInt32.ofNat items.length).toNat = items.length :=
    UInt32.toNat_ofNat_of_lt' (of_decide_eq_true hfew)
  rw [List.flatMap_cons, List.append_assoc] at ht
  obtain ⟨s, hvisit, hs⟩ := law.leaf ⟨name, .u32, UInt32.ofNat items.length⟩
    (UInt32.ofNat olds.length) hfit rfl ht
  obtain ⟨t', hitems, ht'⟩ := h rest s hs
  have hshort : shortage items.length s = none := by
    refine law.shortage_eq_none hs ?_
    rw [List.length_append]
    exact Nat.le_add_right_of_le (length_le_of_substantial hsub)
  refine ⟨t', ?_, ht'⟩
  rw [Field.visit]
  simp only [hvisit, law.decodes hs, Kind.delivered, hcount, decodeItems, hshort, hitems,
    List.flatMap_cons]

end

/-! ### Records

The induction is on the record that was written; the one that is filled only follows. -/

mutual

theorem fills_field (law : Recovers ready token fit events) : ∀ {f g : Field},
    f.isPlain → f.alike g → LeavesFit fit f.stops → f.everySequence fewEnough →
    f.everySequence (substantial token) →
    Fills ready token events g.visit f.stops (f.deliver g)
  | .leaf name kind v, .leaf name' kind' old, _, halike, hfit, _, _ => by
    simp only [Field.alike, Bool.and_eq_true, beq_iff_eq] at halike
    obtain ⟨⟨rfl, rfl⟩, hlen⟩ := halike
    have hleaf := law.fills_leaf hfit.head hlen
    have hvisit : (Field.leaf name kind old).visit =
        fun t : Traversal σ => (visitLeaf kind name old t).map (.leaf name kind) := by
      funext t
      rw [Field.visit]
    rw [hvisit, Field.deliver]
    exact hleaf.map (Field.leaf name kind)
  | .signed name w v, .signed name' w' old, _, halike, hfit, _, _ => by
    simp only [Field.alike, Bool.and_eq_true, beq_iff_eq] at halike
    obtain ⟨rfl, rfl⟩ := halike
    have hsigned : Fills ready token events (visitSigned w name old)
        [.leaf ⟨name, w.carrier, w.toCarrier v⟩] v :=
      law.fills_signed hfit.head
    have hvisit : (Field.signed name w old).visit =
        fun t : Traversal σ => (visitSigned w name old t).map (.signed name w) := by
      funext t
      rw [Field.visit]
    rw [hvisit, Field.deliver]
    exact hsigned.map (Field.signed name w)
  | .nested name body, .nested name' target, hplain, halike, hfit, hfew, hsub => by
    simp only [Field.alike, Bool.and_eq_true, beq_iff_eq] at halike
    obtain ⟨rfl, hbody⟩ := halike
    have hbodies := visit_record law hplain hbody hfit.left hfew hsub
    have hnested := law.fills_nested (r := target) hbodies
    have hvisit : (Field.nested name target).visit = fun t : Traversal σ =>
        (visitNested (Record.visit target) target t).map (.nested name) := by
      funext t
      rw [Field.visit]
    rw [hvisit, Field.deliver]
    exact hnested.map (Field.nested name)
  | .sequence name items item, .sequence name' olds item', hplain, halike, hfit, hfew, hsub => by
    simp only [Field.alike, Bool.and_eq_true, beq_iff_eq] at halike
    obtain ⟨rfl, hitem⟩ := halike
    rw [Field.isPlain, Bool.and_eq_true] at hplain
    rw [Field.everySequence, Bool.and_eq_true] at hfew hsub
    rw [Field.deliver]
    have hitems := fills_items law hplain.2 hitem hfit.tail hfew.2 hsub.2
    exact law.fills_sequence hfit.head hfew.1 hsub.1 hitems

/-- **A record is filled with the values that its input was written from.** -/
theorem visit_record (law : Recovers ready token fit events) : ∀ {r s : Record},
    r.isPlain → r.alike s → LeavesFit fit r.stops → r.everySequence fewEnough →
    r.everySequence (substantial token) →
    Fills ready token events s.visit r.stops (r.deliver s)
  | .strict fs, .strict gs, hplain, halike, hfit, hfew, hsub => by
    have hfields := fills_fields law hplain halike hfit hfew hsub
    have hvisit : (Record.strict gs).visit =
        fun t : Traversal σ => (visitFields gs t).map .strict := by
      funext t
      rw [Record.visit]
    rw [hvisit, Record.deliver]
    exact hfields.map Record.strict

theorem fills_fields (law : Recovers ready token fit events) : ∀ {fs gs : List Field},
    fieldsPlain fs → fieldsAlike fs gs → LeavesFit fit (fieldStops fs) →
    everySequenceOfFields fewEnough fs → everySequenceOfFields (substantial token) fs →
    Fills ready token events (visitFields gs) (fieldStops fs) (deliverFields fs gs)
  | [], [], _, _, _, _, _ => by
    intro rest t ht
    rw [visitFields, deliverFields]
    exact ⟨t, rfl, ht⟩
  | f :: fs, g :: gs, hplain, halike, hfit, hfew, hsub => by
    rw [fieldsPlain, Bool.and_eq_true] at hplain
    rw [fieldsAlike, Bool.and_eq_true] at halike
    rw [everySequenceOfFields, Bool.and_eq_true] at hfew hsub
    have hfirst := fills_field law hplain.1 halike.1 hfit.left hfew.1 hsub.1
    have hothers := fills_fields law hplain.2 halike.2 hfit.right hfew.2 hsub.2
    rw [fieldStops, deliverFields]
    refine hfirst.cons hothers ?_
    intro t s t' log log' hvisit hvisits
    simp only [visitFields, hvisit, hvisits]

theorem fills_items (law : Recovers ready token fit events) : ∀ {rs : List Record}
    {item target : Record}, itemsPlain item rs → item.alike target →
    LeavesFit fit (itemStops rs) →
    everySequenceOfItems fewEnough rs → everySequenceOfItems (substantial token) rs →
    Fills ready token events (visitCopies (visitNested (Record.visit target) target) rs.length)
      (itemStops rs) (deliverItems rs target)
  | [], _, _, _, _, _, _, _ => by
    intro rest t ht
    rw [deliverItems]
    exact ⟨t, rfl, ht⟩
  | r :: rs, item, target, hplain, halike, hfit, hfew, hsub => by
    rw [itemsPlain, Bool.and_eq_true, Bool.and_eq_true] at hplain
    rw [everySequenceOfItems, Bool.and_eq_true] at hfew hsub
    have hform : r.alike target := Record.alike_of_alike hplain.1.2 halike
    have hrecord := visit_record law hplain.1.1 hform hfit.left.left hfew.1 hsub.1
    have hfirst := law.fills_nested (r := target) hrecord
    have hothers := fills_items law hplain.2 halike hfit.right hfew.2 hsub.2
    rw [itemStops, deliverItems]
    refine hfirst.cons hothers ?_
    intro t s t' log log' hvisit hvisits
    simp only [List.length_cons, visitCopies, hvisit, hvisits]

end

end Recovers

end RecordCodec
