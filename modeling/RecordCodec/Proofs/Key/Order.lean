import RecordCodec.Proofs.Alike
import RecordCodec.Proofs.ByteOrder
import RecordCodec.Proofs.Comparison
import RecordCodec.Proofs.Key.Encoding

/-!
# Keys are sorted as records

The keys of two records of one form part ways at the first field that is not the same, in the
direction in which the records are ordered, or they are the same. For a field of fixed width that is
so because digits are monotone. A field of variable width has its length in front, so contents are
compared only where they are equally long, and what the contents are does not matter: they may look
like digits or like the border.

That keys part ways, rather than that they are ordered, is what the induction over a record needs,
since whatever follows in a key must not change what its fields have decided. It also says that no
key is the beginning of another.

## Main definitions

* `Embeds` — byte strings are sorted, and are the same where the contents are.

## Main results

* `Record.embeds` — the tokens of two records are sorted as the records.
* `Record.key_order` — so are their keys.
-/

namespace RecordCodec

/-! ### Sorted by contents -/

/-- The byte strings are sorted as the ordering says, which says equal for the same contents. -/
structure Embeds (o : Ordering) (same : Bool) (x y : Bytes) : Prop where
  sorts : Sorts o x y
  same_iff : o = .eq ↔ same

namespace Embeds

variable {o o' : Ordering} {same same' : Bool} {x y u v : Bytes}

theorem append (h : Embeds o same x y) (h' : o = .eq → Embeds o' same' u v) :
    Embeds (o.then o') (same && same') (x ++ u) (y ++ v) := by
  refine ⟨h.sorts.append fun ho => (h' ho).sorts, ?_⟩
  rw [Ordering.then_eq_eq, Bool.and_eq_true, ← h.same_iff]
  constructor
  · rintro ⟨ho, hrest⟩
    exact ⟨ho, (h' ho).same_iff.mp hrest⟩
  · rintro ⟨ho, hrest⟩
    exact ⟨ho, (h' ho).same_iff.mpr hrest⟩

theorem append_right (h : Embeds o same x y) (border : Bytes) :
    Embeds o same (x ++ border) (y ++ border) :=
  ⟨h.sorts.append_right border, h.same_iff⟩

end Embeds

/-! ### Values -/

theorem utf8_injective {s u : String} (h : utf8 s = utf8 u) : s = u := by
  have hread := congrArg ofUtf8? h
  rw [ofUtf8?_utf8, ofUtf8?_utf8] at hread
  exact Option.some.inj hread

/-- Digits of a number that fits its numeral. -/
theorem sorts_digits {w n m : Nat} (hn : ofBigEndian (bigEndian w n) = n)
    (hm : ofBigEndian (bigEndian w m) = m) :
    Sorts (compare n m) (Hex.encode (bigEndian w n)) (Hex.encode (bigEndian w m)) :=
  (sorts_bigEndian hn hm).hex

/-- Bytes behind their length. -/
theorem sorts_measured {bs cs : Bytes} (hbs : bs.length < UInt32.size)
    (hcs : cs.length < UInt32.size) :
    Sorts (orderByLength bs cs) (Hex.encode (bigEndian 4 bs.length) ++ bs)
      (Hex.encode (bigEndian 4 cs.length) ++ cs) :=
  (sorts_digits (ofBigEndian_bigEndian_four hbs) (ofBigEndian_bigEndian_four hcs)).append
    fun h => sorts_of_length_eq (Nat.compare_eq_eq.mp h)

theorem orderByLength_eq_eq_iff {bs cs : Bytes} : orderByLength bs cs = .eq ↔ bs = cs := by
  rw [orderByLength, Ordering.then_eq_eq, Nat.compare_eq_eq]
  constructor
  · rintro ⟨hlen, hbytes⟩
    exact (sorts_of_length_eq hlen).eq_iff.mpr hbytes
  · rintro rfl
    exact ⟨rfl, (sorts_of_length_eq rfl).eq_iff.mp rfl⟩

/-- **Values of one kind** are sorted in keys. -/
theorem Kind.embeds {k : Kind} {v w : k.Value} (hv : k.isKeyable v) (hw : k.isKeyable w)
    (hlen : k.fixedLength v = k.fixedLength w) :
    Embeds (k.order v w) (k.agrees v w) (k.token v) (k.token w) := by
  cases k with
  | u32 =>
    refine ⟨sorts_digits (ofBigEndian_bigEndian_four v.toNat_lt)
      (ofBigEndian_bigEndian_four w.toNat_lt), ?_⟩
    rw [order, agrees, Nat.compare_eq_eq, UInt32.toNat_inj, beq_iff_eq]
  | u16 =>
    refine ⟨sorts_digits (ofBigEndian_bigEndian_two v.toNat_lt)
      (ofBigEndian_bigEndian_two w.toNat_lt), ?_⟩
    rw [order, agrees, Nat.compare_eq_eq, UInt16.toNat_inj, beq_iff_eq]
  | u8 =>
    refine ⟨sorts_digits (ofBigEndian_bigEndian_one v.toNat_lt)
      (ofBigEndian_bigEndian_one w.toNat_lt), ?_⟩
    rw [order, agrees, Nat.compare_eq_eq, UInt8.toNat_inj, beq_iff_eq]
  | bool =>
    have hdigits : Below [48] [49] := .head (by decide) [] []
    cases v <;> cases w
    · exact ⟨rfl, by decide⟩
    · exact ⟨hdigits, by decide⟩
    · exact ⟨hdigits, by decide⟩
    · exact ⟨rfl, by decide⟩
  | fixed =>
    have hsorts := sorts_of_length_eq hlen
    refine ⟨hsorts, ?_⟩
    rw [agrees, beq_iff_eq]
    exact hsorts.eq_iff.symm
  | block flags =>
    simp only [isKeyable, decide_eq_true_iff] at hv hw
    refine ⟨sorts_measured hv hw, ?_⟩
    rw [order, orderByLength_eq_eq_iff, agrees, ByteBlock.agrees, beq_iff_eq]
  | text =>
    simp only [isKeyable, decide_eq_true_iff] at hv hw
    refine ⟨sorts_measured hv hw, ?_⟩
    rw [order, orderByLength_eq_eq_iff, agrees, beq_iff_eq]
    exact ⟨utf8_injective, congrArg utf8⟩

/-- Signed integers are the same if their carriers are. -/
theorem Signed.agrees_toCarrier (w : Signed) (v v' : w.Value) :
    w.carrier.agrees (w.toCarrier v) (w.toCarrier v') = (v == v') := by
  rw [Bool.eq_iff_iff, beq_iff_eq]
  have hinj : w.toCarrier v = w.toCarrier v' ↔ v = v' := by
    constructor
    · intro h
      rw [← w.ofCarrier_toCarrier v, h, w.ofCarrier_toCarrier]
    · rintro rfl
      rfl
  rw [← hinj]
  cases w <;> exact beq_iff_eq

/-! ### Records

Each lemma is about two parts of one form, and asks the same of both: that they are plain, that
their leaves have a form in keys, and that their counts fit. -/

/-- The bytes of a leaf in a key, and the border behind them. -/
theorem embeds_leaf (border : Bytes) (name : String) {k : Kind} {v w : k.Value}
    (hv : (⟨name, k, v⟩ : Leaf).isKeyable) (hw : (⟨name, k, w⟩ : Leaf).isKeyable)
    (hlen : k.fixedLength v = k.fixedLength w) :
    Embeds (k.order v w) (k.agrees v w)
      ([Stop.leaf ⟨name, k, v⟩].flatMap (Stop.token border))
      ([Stop.leaf ⟨name, k, w⟩].flatMap (Stop.token border)) := by
  simp only [List.flatMap_cons, List.flatMap_nil, List.append_nil, Stop.token]
  exact (Kind.embeds hv hw hlen).append_right border

/-- A count that fits its length field is sorted as a number. -/
theorem embeds_count (border : Bytes) (name : String) {n m : Nat} (hn : n < UInt32.size)
    (hm : m < UInt32.size) :
    Embeds (compare n m) (n == m)
      ([Stop.leaf ⟨name, .u32, UInt32.ofNat n⟩].flatMap (Stop.token border))
      ([Stop.leaf ⟨name, .u32, UInt32.ofNat m⟩].flatMap (Stop.token border)) := by
  have hleaf := embeds_leaf border name (k := .u32) (v := UInt32.ofNat n) (w := UInt32.ofNat m)
    rfl rfl rfl
  refine ⟨?_, ?_⟩
  · have hsorts := hleaf.sorts
    rwa [Kind.order, UInt32.toNat_ofNat_of_lt' hn, UInt32.toNat_ofNat_of_lt' hm] at hsorts
  · rw [Nat.compare_eq_eq, beq_iff_eq]

/-- Stops, and then other stops. -/
theorem Embeds.stops {o o' : Ordering} {same same' : Bool} {ss ss' us us' : List Stop}
    {border : Bytes}
    (h : Embeds o same (ss.flatMap (Stop.token border)) (ss'.flatMap (Stop.token border)))
    (h' : o = .eq →
      Embeds o' same' (us.flatMap (Stop.token border)) (us'.flatMap (Stop.token border))) :
    Embeds (o.then o') (same && same') ((ss ++ us).flatMap (Stop.token border))
      ((ss' ++ us').flatMap (Stop.token border)) := by
  rw [List.flatMap_append, List.flatMap_append]
  exact h.append h'

/-- A close adds the border. -/
theorem Embeds.close {o : Ordering} {same : Bool} {ss ss' : List Stop} {border : Bytes}
    (h : Embeds o same (ss.flatMap (Stop.token border)) (ss'.flatMap (Stop.token border))) :
    Embeds o same ((ss ++ [Stop.close]).flatMap (Stop.token border))
      ((ss' ++ [Stop.close]).flatMap (Stop.token border)) := by
  simp only [List.flatMap_append, List.flatMap_cons, List.flatMap_nil, List.append_nil, Stop.token]
  exact h.append_right border

mutual

theorem Field.embeds (border : Bytes) : ∀ {f g : Field}, f.isPlain → g.isPlain → f.alike g →
    LeavesFit Leaf.isKeyable f.stops → LeavesFit Leaf.isKeyable g.stops →
    f.everySequence fewEnough → g.everySequence fewEnough →
    Embeds (f.order g) (f.agrees g) (f.stops.flatMap (Stop.token border))
      (g.stops.flatMap (Stop.token border))
  | .leaf name k v, .leaf name' k' w, _, _, halike, hf, hg, _, _ => by
    simp only [Field.alike, Bool.and_eq_true, beq_iff_eq] at halike
    obtain ⟨⟨rfl, rfl⟩, hlen⟩ := halike
    rw [Field.order, Field.agrees, dif_pos rfl, dif_pos rfl]
    exact embeds_leaf border name hf.head hg.head hlen
  | .signed name w v, .signed name' w' v', _, _, halike, hf, hg, _, _ => by
    simp only [Field.alike, Bool.and_eq_true, beq_iff_eq] at halike
    obtain ⟨rfl, rfl⟩ := halike
    have hlen : w.carrier.fixedLength (w.toCarrier v) =
        w.carrier.fixedLength (w.toCarrier v') := by
      cases w <;> rfl
    rw [Field.order, Field.agrees, dif_pos rfl, dif_pos rfl, ← Signed.agrees_toCarrier]
    exact embeds_leaf border name hf.head hg.head hlen
  | .nested name body, .nested name' body', hf, hg, halike, hfl, hgl, hfn, hgn => by
    simp only [Field.alike, Bool.and_eq_true, beq_iff_eq] at halike
    obtain ⟨rfl, hbody⟩ := halike
    have hrecord := Record.embeds border hf hg hbody hfl.left hgl.left hfn hgn
    exact hrecord.close
  | .sequence name items item, .sequence name' items' item', hf, hg, halike, hfl, hgl, hfn,
      hgn => by
    simp only [Field.alike, Bool.and_eq_true, beq_iff_eq] at halike
    obtain ⟨rfl, hitem⟩ := halike
    rw [Field.isPlain, Bool.and_eq_true] at hf hg
    rw [Field.everySequence, Bool.and_eq_true] at hfn hgn
    have hcount := embeds_count border name (of_decide_eq_true hfn.1)
      (of_decide_eq_true hgn.1)
    have hitems : compare items.length items'.length = .eq →
        Embeds (orderItems items items') (itemsAgree items items')
          ((itemStops items).flatMap (Stop.token border))
          ((itemStops items').flatMap (Stop.token border)) := by
      intro hlen
      exact embeds_items border hf.2 hg.2 hitem (Nat.compare_eq_eq.mp hlen)
        hfl.tail hgl.tail hfn.2 hgn.2
    exact hcount.stops hitems

/-- **The tokens of two records** part ways as the records, or are the same. -/
theorem Record.embeds (border : Bytes) : ∀ {r s : Record}, r.isPlain → s.isPlain → r.alike s →
    LeavesFit Leaf.isKeyable r.stops → LeavesFit Leaf.isKeyable s.stops →
    r.everySequence fewEnough → s.everySequence fewEnough →
    Embeds (r.order s) (r.agrees s) (r.token border) (s.token border)
  | .strict fs, .strict gs, hr, hs, halike, hrl, hsl, hrn, hsn =>
    embeds_fields border hr hs halike hrl hsl hrn hsn

theorem embeds_fields (border : Bytes) : ∀ {fs gs : List Field}, fieldsPlain fs →
    fieldsPlain gs → fieldsAlike fs gs →
    LeavesFit Leaf.isKeyable (fieldStops fs) → LeavesFit Leaf.isKeyable (fieldStops gs) →
    everySequenceOfFields fewEnough fs → everySequenceOfFields fewEnough gs →
    Embeds (orderFields fs gs) (fieldsAgree fs gs) ((fieldStops fs).flatMap (Stop.token border))
      ((fieldStops gs).flatMap (Stop.token border))
  | [], [], _, _, _, _, _, _, _ => ⟨rfl, iff_of_true rfl rfl⟩
  | f :: fs, g :: gs, hf, hg, halike, hfl, hgl, hfn, hgn => by
    rw [fieldsPlain, Bool.and_eq_true] at hf hg
    rw [fieldsAlike, Bool.and_eq_true] at halike
    rw [everySequenceOfFields, Bool.and_eq_true] at hfn hgn
    have hfirst := Field.embeds border hf.1 hg.1 halike.1 hfl.left hgl.left hfn.1 hgn.1
    have hothers := embeds_fields border hf.2 hg.2 halike.2 hfl.right hgl.right hfn.2 hgn.2
    exact hfirst.stops fun _ => hothers

theorem embeds_items (border : Bytes) : ∀ {rs ss : List Record} {item item' : Record},
    itemsPlain item rs → itemsPlain item' ss → item.alike item' → rs.length = ss.length →
    LeavesFit Leaf.isKeyable (itemStops rs) → LeavesFit Leaf.isKeyable (itemStops ss) →
    everySequenceOfItems fewEnough rs → everySequenceOfItems fewEnough ss →
    Embeds (orderItems rs ss) (itemsAgree rs ss) ((itemStops rs).flatMap (Stop.token border))
      ((itemStops ss).flatMap (Stop.token border))
  | [], [], _, _, _, _, _, _, _, _, _, _ => ⟨rfl, iff_of_true rfl rfl⟩
  | r :: rs, s :: ss, item, item', hr, hs, halike, hlen, hrl, hsl, hrn, hsn => by
    rw [itemsPlain, Bool.and_eq_true, Bool.and_eq_true] at hr hs
    rw [everySequenceOfItems, Bool.and_eq_true] at hrn hsn
    have hform : r.alike s :=
      Record.alike_of_alike hr.1.2 (Record.alike_trans halike hs.1.2)
    have hrecord := Record.embeds border hr.1.1 hs.1.1 hform hrl.left.left hsl.left.left hrn.1
      hsn.1
    have hothers := embeds_items border hr.2 hs.2 halike (Nat.succ.inj hlen) hrl.right hsl.right
      hrn.2 hsn.2
    exact hrecord.close.stops fun _ => hothers

end

/-- **Keys are sorted as records**, as long as memory can hold them. The key of the one record is
less than that of the other exactly if the record comes first, the keys are the same exactly if the
records agree, and if they are not the same, neither is the beginning of the other. -/
theorem Record.key_order (border : Option String) {a b : Record} (ha : a.isPlain) (hb : b.isPlain)
    (halike : a.alike b) (hka : a.isKeyable) (hkb : b.isKeyable)
    (hfa : (a.token (borderBytes border)).length ≤ maxLength)
    (hfb : (b.token (borderBytes border)).length ≤ maxLength) :
    ∃ x y, (a.key border).result = .ok x ∧ (b.key border).result = .ok y ∧
      (x < y ↔ a.order b = .lt) ∧ (x = y ↔ a.agrees b) ∧ (x ≠ y → ¬x <+: y ∧ ¬y <+: x) := by
  obtain ⟨-, hal, han⟩ := Record.isSerial_iff.mp hka
  obtain ⟨-, hbl, hbn⟩ := Record.isSerial_iff.mp hkb
  have hembeds := Record.embeds (borderBytes border) ha hb halike hal hbl han hbn
  refine ⟨_, _, a.result_key hka hfa, b.result_key hkb hfb, hembeds.sorts.lt_iff, ?_,
    hembeds.sorts.not_isPrefix⟩
  rw [hembeds.sorts.eq_iff]
  exact hembeds.same_iff

/-- The keys of a record and of the blank one. -/
theorem Record.key_order_specimen :
    ∃ x y, (specimen.key (some ":")).result = .ok x ∧
      (specimen.blank.key (some ":")).result = .ok y ∧
      (x < y ↔ specimen.order specimen.blank = .lt) ∧
      (x = y ↔ specimen.agrees specimen.blank) ∧ (x ≠ y → ¬x <+: y ∧ ¬y <+: x) :=
  Record.key_order (some ":") (by decide) (by decide) (by decide) (by decide) (by decide)
    (by decide) (by decide)

end RecordCodec
