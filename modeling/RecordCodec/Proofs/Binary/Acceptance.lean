import RecordCodec.Proofs.Acceptance
import RecordCodec.Proofs.Binary.Advance
import RecordCodec.Proofs.Invariant

/-!
# What the binary decoder accepts

Almost all bytes of the binary form are determined by the values that they stand for: where the
decoder accepts bytes, the encoder would have written the same. The one exception is a truth value,
which may be read from any byte and is written as zero or one.

## Main definitions

* `Record.truthMarks` — which bytes of the form of a record are truth values.
* `normalised` — bytes with each truth value as it would be written.
* `bitsOnly` — bytes of which those that are truth values are zero or one.
* `Leaf.ReadFrom` — the bytes are the form of the leaf, but for truth values.
* `Decoder.Unframed` — a decoder that looks for no trailer.

## Main results

* `Decoder.exact_read` — what is accepted as a leaf is the form of the leaf.
* `Decoder.accepts` — so it is for records.
* `Decoder.keeps_unframed` — the cursor stays in its bytes, in every history.
-/

namespace RecordCodec

/-! ### Truth values among bytes -/

/-- For each byte of the leaf's form, whether it is a truth value. -/
def Leaf.truthMarks (l : Leaf) : List Bool :=
  List.replicate l.layout.length (l.kind == .bool)

/-- For each byte of the stop's form, whether it is a truth value. -/
def Stop.truthMarks : Stop → List Bool
  | .leaf l => l.truthMarks
  | .close => []

/-- For each byte of the record's form, whether it is a truth value. -/
def Record.truthMarks (r : Record) : List Bool :=
  r.stops.flatMap Stop.truthMarks

/-- The bytes with each nonzero one that is marked replaced by one. -/
def normalised (marks : List Bool) (bs : Bytes) : Bytes :=
  List.zipWith (fun mark b => if mark && b != 0 then 1 else b) marks bs

/-- All marked bytes are zero or one. -/
def bitsOnly (marks : List Bool) (bs : Bytes) : Bool :=
  (marks.zip bs).all fun p => !p.1 || p.2 ≤ 1

/-- Where nothing is marked, there is nothing to ask. -/
theorem bitsOnly_of_unmarked {marks : List Bool} (h : ∀ mark ∈ marks, mark = false) (bs : Bytes) :
    bitsOnly marks bs := by
  refine List.all_eq_true.mpr ?_
  intro p hp
  rw [h p.1 (List.of_mem_zip hp).1]
  rfl

/-- Where all marked bytes are zero or one, there is nothing to replace. -/
theorem normalised_of_bitsOnly {marks : List Bool} {bs : Bytes} (h : marks.length = bs.length)
    (hbits : bitsOnly marks bs) : normalised marks bs = bs := by
  induction marks generalizing bs with
  | nil => exact (List.length_eq_zero_iff.mp h.symm).symm
  | cons mark marks ih =>
    cases bs with
    | nil => exact absurd h nofun
    | cons b bs =>
      rw [bitsOnly, List.zip_cons_cons, List.all_cons, Bool.and_eq_true] at hbits
      have hrest : normalised marks bs = bs := ih (Nat.succ.inj h) hbits.2
      have hfirst : (if mark && b != 0 then 1 else b) = b := by
        by_cases hb : mark && b != 0
        · rw [if_pos hb]
          rw [Bool.and_eq_true, bne_iff_ne] at hb
          have hle : b ≤ 1 := by
            have hsmall := hbits.1
            rw [hb.1] at hsmall
            exact of_decide_eq_true hsmall
          have hle' : b.toNat ≤ 1 := UInt8.le_iff_toNat_le.mp hle
          have hne : b.toNat ≠ 0 := fun hzero => hb.2 (UInt8.toNat_inj.mp hzero)
          exact UInt8.toNat_inj.mp (show 1 = b.toNat by omega)
        · rw [if_neg hb]
      rw [normalised, List.zipWith_cons_cons, hfirst]
      exact congrArg (b :: ·) hrest

theorem length_truthMarks (ss : List Stop) :
    (ss.flatMap Stop.truthMarks).length = (ss.flatMap Stop.layout).length := by
  induction ss with
  | nil => rfl
  | cons s ss ih =>
    rw [List.flatMap_cons, List.flatMap_cons, List.length_append, List.length_append, ih]
    cases s with
    | leaf l => rw [Stop.truthMarks, Stop.layout, Leaf.truthMarks, List.length_replicate]
    | close => rfl

/-! ### Bytes that a leaf was read from -/

/-- The bytes are the form of the leaf, but for truth values. -/
structure Leaf.ReadFrom (l : Leaf) (data : Bytes) : Prop where
  encodable : l.isEncodable
  length : l.layout.length = data.length
  layout : l.layout = normalised l.truthMarks data

/-- A leaf that is no truth value has its own form only. -/
theorem Leaf.ReadFrom.of_layout {l : Leaf} {data : Bytes} (hencodable : l.isEncodable)
    (hkind : (l.kind == .bool) = false) (h : l.layout = data) : l.ReadFrom data := by
  have hmarks : l.truthMarks = List.replicate data.length false := by
    rw [truthMarks, h, hkind]
  have hunmarked : ∀ mark ∈ List.replicate data.length false, mark = false :=
    fun _ => List.eq_of_mem_replicate
  refine ⟨hencodable, congrArg List.length h, ?_⟩
  rw [h, hmarks, normalised_of_bitsOnly List.length_replicate (bitsOnly_of_unmarked hunmarked _)]

/-- A truth value is read from any byte. -/
theorem Leaf.ReadFrom.truth (name : String) (b : UInt8) :
    Leaf.ReadFrom ⟨name, .bool, ofBigEndian [b] != 0⟩ [b] := by
  have hvalue : ofBigEndian [b] = b.toNat := Nat.zero_add _
  have hnonzero : (b.toNat != 0) = (b != 0) := by
    rw [Bool.eq_iff_iff, bne_iff_ne, bne_iff_ne, ne_eq, ne_eq, ← UInt8.toNat_inj]
    rfl
  refine ⟨rfl, rfl, ?_⟩
  show [if ofBigEndian [b] != 0 then 1 else 0] = [if true && b != 0 then 1 else b]
  rw [hvalue, hnonzero, Bool.true_and]
  by_cases hb : b = 0
  · rw [hb]
  · rw [bne_iff_ne.mpr hb, if_pos rfl, if_pos rfl]

/-- The bytes of a stop. -/
def Stop.ReadFrom : Stop → Bytes → Prop
  | .leaf l, data => l.ReadFrom data
  | .close, data => data = []

theorem Stop.ReadFrom.truthMarks {s : Stop} {data : Bytes} (h : s.ReadFrom data) :
    s.truthMarks.length = data.length ∧ s.layout = normalised s.truthMarks data := by
  cases s with
  | leaf l =>
    have hleaf : l.ReadFrom data := h
    rw [Stop.truthMarks, Leaf.truthMarks, List.length_replicate]
    exact ⟨hleaf.length, hleaf.layout⟩
  | close =>
    obtain rfl : data = [] := h
    exact ⟨rfl, rfl⟩

/-- **Bytes that stops spell** are their form, but for truth values. -/
theorem Spells.readFrom {ss : List Stop} {data : Bytes} (h : Spells Stop.ReadFrom ss data) :
    LeavesFit Leaf.isEncodable ss ∧ (ss.flatMap Stop.layout).length = data.length ∧
      ss.flatMap Stop.layout = normalised (ss.flatMap Stop.truthMarks) data := by
  have hfit := h.forall_mem (P := fun s => ∀ l, s = .leaf l → l.isEncodable) (by
    rintro s d hs l rfl
    exact Leaf.ReadFrom.encodable hs)
  obtain ⟨hlength, hlayout⟩ := h.zipWith fun _ _ => Stop.ReadFrom.truthMarks
  rw [length_truthMarks] at hlength
  exact ⟨fun l hl => hfit _ hl l rfl, hlength, hlayout⟩

/-! ### Leaves -/

/-- A length field takes bytes. -/
theorem lengthField_append_ne_nil (n : Nat) (data : Bytes) : bigEndian 4 n ++ data ≠ [] :=
  nofun

namespace Decoder

/-- The terms on which a decoder reads. -/
def terms (m : Decoder) (firm : Prop) : Terms Decoder :=
  ⟨m, fun e => e.isCutOff, firm⟩

variable {m : Decoder} {firm : Prop}

theorem lacks_exhausted {requested left : Nat} (h : left < requested) :
    (terms m firm).lacks (.bufferExhausted requested left) :=
  decide_eq_true h

theorem exact_take (n : Nat) :
    Act.Exact (terms m firm) (take (Cursor.cut n)) fun a data => a = data ∧ data.length = n :=
  Act.exact_cut_bytes lacks_exhausted n

theorem exact_terminated (name : String) :
    Act.Exact (terms m firm) (take (Cursor.cutTerminated name)) fun a data =>
      a.contains 0 = false ∧ data = a ++ [0] := by
  refine Act.exact_cut ?_
  intro c a c' _ hcut
  obtain ⟨hzero, more, hrest⟩ := Cursor.rest_of_cutTerminated hcut
  exact ⟨a ++ [0], more, hrest, Cursor.cuts_cutTerminated rfl hzero, hzero, rfl⟩

/-- Bytes that are cut off in one piece, taken for a value, and reported. -/
theorem exact_take_saw {α : Type} (n : Nat) (value : Bytes → α) (name : String)
    (shown : Bytes → Shown) :
    Act.Exact (terms m firm)
      (do
        let bs ← take (Cursor.cut n)
        saw name (shown bs)
        pure (value bs))
      fun v data => data.length = n ∧ v = value data := by
  refine ((exact_take n).bind fun _ =>
    (Act.exact_report _).bind fun _ => Act.exact_pure _).mono ?_
  rintro v - ⟨a, data, -, rfl, ⟨rfl, hn⟩, -, -, -, rfl, rfl, rfl, rfl⟩
  rw [List.nil_append, List.append_nil]
  exact ⟨hn, rfl⟩

theorem exact_getWord (name : String) :
    Act.Exact (terms m firm) (getWord name) fun v data => data = bigEndian 4 v.toNat := by
  refine (exact_take_saw 4 (fun bs => UInt32.ofNat (ofBigEndian bs)) name
    fun bs => .u32 (UInt32.ofNat (ofBigEndian bs))).mono ?_
  rintro v data ⟨hlength, rfl⟩
  exact (bigEndian_ofBigEndian_word hlength).symm

theorem exact_getMeasured (name : String) :
    Act.Exact (terms m firm) (getMeasured name) fun a data =>
      a.length < UInt32.size ∧ data = bigEndian 4 a.length ++ a := by
  refine ((exact_getWord name).bind fun n => exact_take n.toNat).mono ?_
  rintro a - ⟨n, -, data, rfl, rfl, rfl, hn⟩
  rw [hn]
  exact ⟨n.toNat_lt, rfl⟩

/-- The bytes of a block, however it is delimited, and its event. -/
theorem exact_block {act : Act Decoder Bytes} {P : Bytes → Bytes → Prop} (flags : Mask)
    (name : String) (h : Act.Exact (terms m firm) act P) :
    Act.Exact (terms m firm)
      (do
        let bs ← act
        let isOwned := meets flags BlockFlags.owned
        saw name (.block bs.length (leading bs) (some isOwned))
        pure (ByteBlock.ofBytes isOwned bs))
      fun b data => P b.toBytes data := by
  refine (h.bind fun _ => (Act.exact_report _).bind fun _ => Act.exact_pure _).mono ?_
  rintro b - ⟨a, data, -, rfl, ha, -, -, -, rfl, rfl, rfl, rfl⟩
  rwa [List.nil_append, List.append_nil, ByteBlock.toBytes_ofBytes]

/-- **What is accepted as a leaf** is the form of the leaf, but for truth values. -/
theorem exact_read (kind : Kind) (name : String) (old : kind.Value) :
    Act.Exact (terms m firm) (read kind name old) fun v data =>
      kind.fixedLength old = kind.fixedLength v ∧ Leaf.ReadFrom ⟨name, kind, v⟩ data ∧
        (Leaf.layout ⟨name, kind, old⟩ ≠ [] → data ≠ []) := by
  cases kind with
  | u32 =>
    refine (exact_getWord name).mono ?_
    rintro v data rfl
    exact ⟨rfl, .of_layout rfl rfl rfl,
      fun _ => List.ne_nil_of_length_eq_add_one (length_bigEndian 4 v.toNat)⟩
  | u16 =>
    refine (exact_take_saw 2 (fun bs => UInt16.ofNat (ofBigEndian bs)) name
      fun bs => .u16 (UInt16.ofNat (ofBigEndian bs))).mono ?_
    rintro v data ⟨hlength, rfl⟩
    exact ⟨rfl, .of_layout rfl rfl (bigEndian_ofBigEndian_half hlength),
      fun _ => List.ne_nil_of_length_eq_add_one hlength⟩
  | u8 =>
    refine (exact_take_saw 1 (fun bs => UInt8.ofNat (ofBigEndian bs)) name
      fun bs => .u8 (UInt8.ofNat (ofBigEndian bs))).mono ?_
    rintro v data ⟨hlength, rfl⟩
    exact ⟨rfl, .of_layout rfl rfl (bigEndian_ofBigEndian_byte hlength),
      fun _ => List.ne_nil_of_length_eq_add_one hlength⟩
  | bool =>
    refine (exact_take_saw 1 (fun bs => ofBigEndian bs != 0) name
      fun bs => .bool (ofBigEndian bs != 0)).mono ?_
    rintro v data ⟨hlength, rfl⟩
    obtain ⟨b, rfl⟩ := List.length_eq_one_iff.mp hlength
    exact ⟨rfl, .truth name b, fun _ => List.cons_ne_nil b []⟩
  | fixed =>
    refine (exact_take_saw old.length id name
      fun bs => .fixed bs.length (leading bs)).mono ?_
    rintro v data ⟨hlength, rfl⟩
    refine ⟨hlength.symm, .of_layout rfl rfl rfl, ?_⟩
    rintro hsome rfl
    exact hsome (List.length_eq_zero_iff.mp hlength.symm)
  | block flags =>
    simp only [read]
    by_cases hterm : meets flags BlockFlags.terminated
    · simp only [if_pos hterm]
      refine (exact_block flags name (exact_terminated name)).mono ?_
      rintro b data ⟨hzero, rfl⟩
      have hencodable : Leaf.isEncodable ⟨name, .block flags, b⟩ := by
        rw [Leaf.isEncodable, Kind.isEncodable, if_pos hterm, hzero]
        rfl
      exact ⟨rfl, .of_layout hencodable rfl (if_pos hterm),
        fun _ => List.append_ne_nil_of_right_ne_nil _ (List.cons_ne_nil 0 [])⟩
    · simp only [if_neg hterm]
      refine (exact_block flags name (exact_getMeasured name)).mono ?_
      rintro b data ⟨hsmall, rfl⟩
      have hencodable : Leaf.isEncodable ⟨name, .block flags, b⟩ := by
        rw [Leaf.isEncodable, Kind.isEncodable, if_neg hterm]
        exact decide_eq_true hsmall
      exact ⟨rfl, .of_layout hencodable rfl (if_neg hterm),
        fun _ => lengthField_append_ne_nil b.toBytes.length b.toBytes⟩
  | text =>
    refine ((exact_getMeasured name).bind
      (R := fun bs s data => utf8 s = bs ∧ data = []) fun bs => ?_).mono ?_
    · cases htext : ofUtf8? bs with
      | none => exact Act.exact_fail _ _
      | some s =>
        refine ((Act.exact_report _).bind fun _ => Act.exact_pure s).mono ?_
        rintro s' - ⟨-, -, -, rfl, rfl, rfl, rfl⟩
        exact ⟨utf8_of_ofUtf8? htext, rfl⟩
    · rintro s - ⟨bs, -, -, rfl, ⟨hsmall, rfl⟩, rfl, rfl⟩
      rw [List.append_nil]
      exact ⟨rfl, .of_layout (decide_eq_true hsmall) rfl rfl,
        fun _ => lengthField_append_ne_nil (utf8 s).length (utf8 s)⟩

/-! ### Records -/

/-- **The decoder accepts** the forms of records, but for truth values. -/
theorem accepts : Accepts (terms m firm) Stop.layout Stop.ReadFrom where
  unread _ := rfl
  exhausted := lacks_exhausted
  count _ _ := nofun
  leaf kind name old := by
    rw [Act.ofVisit_leaf]
    refine ((exact_read kind name old).bind fun _ =>
      (Act.exact_pure ()).bind fun _ => Act.exact_pure _).mono ?_
    rintro v - ⟨_, data, -, rfl, hread, -, -, -, rfl, ⟨-, rfl⟩, rfl, rfl⟩
    rw [List.nil_append, List.append_nil]
    exact hread
  close := (Act.exact_pure ()).mono fun _ _ h => ⟨h.2, fun hsome => absurd rfl hsome⟩

/-! ### Decoders that look for no trailer -/

/-- The decoder reads these bytes, all of them, and looks for no trailer. -/
structure Unframed (buffer : Bytes) (t : Traversal Decoder) : Prop where
  decodes : t.direction = .decode
  settled : t.has Options.checksum = false
  whole : t.store.cursor.Whole buffer

theorem unframed_start (context : Context) {options : Mask} (buffer : Bytes)
    (h : ¬meets options Options.checksum) : Unframed buffer (start context options buffer) :=
  ⟨rfl, eq_false_of_ne_true h, Cursor.whole_ofBytes buffer⟩

variable {buffer : Bytes} {t : Traversal Decoder}

theorem Unframed.facing (h : Unframed buffer t) (ht : t.error = none) :
    Facing t.store t.store.cursor.rest t :=
  ⟨ht, h.decodes, rfl, h.whole.limit_le, rfl⟩

theorem Unframed.prepare (h : Unframed buffer t) : prepare t = ⟨.ok (), t, []⟩ := by
  refine prepare_of_settled ?_
  rw [h.settled, Bool.not_false, Bool.or_true]

theorem ignoresError_unframed : IgnoresError (Unframed buffer) :=
  fun _ h _ => ⟨h.decodes, h.settled, h.whole⟩

/-- **The cursor stays in the bytes**, whatever is done with the decoder. -/
theorem keeps_unframed : Codec.Keeps (Unframed buffer) where
  ignores := ignoresError_unframed
  visit kind name v t ht := by
    have hadvance := (advances.visit kind name v).moves t
    obtain ⟨n, hmoved⟩ := hadvance.moved
    have hwhole := hadvance.stays_whole ht.whole
    rw [hmoved] at hwhole ⊢
    exact ⟨ht.decodes, ht.settled, hwhole⟩
  close := Act.keeps_pure ()
  openRun := by
    intro t ht
    show Unframed buffer (Decoder.prepare t).state
    rw [ht.prepare]
    exact ht
  closeRun := Act.keeps_pure ()
  rewind _ h := ⟨h.decodes, h.settled, h.whole.rewind⟩

end Decoder

end RecordCodec
