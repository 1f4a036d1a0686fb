import RecordCodec.Proofs.Acceptance
import RecordCodec.Proofs.Key.Decoding

/-!
# What the key decoder accepts

What a key decoder consumes for a leaf is decided by the form of the leaf and, for blocks and texts,
by the digits of their length. Digits that do not read as a number are complained about with their
place in the input, and that is the only way in which a leaf depends on where it stands.

A key says most of what it says in one way only. Digits may be of either case, and are written in
lower case; borders are as long as they were said to be, and their bytes are not looked at. Every
other byte is what an encoder would have written.

## Main definitions

* `KeyByte`, `Record.keyBytes` — what the bytes of a key belong to.
* `rewritten` — the bytes of a key as they are written.
* `isTidy` — the bytes of a key are as they are written.
* `Leaf.KeyedFrom` — the bytes are the token of the leaf, but for the case of digits.

## Main results

* `Hex.encode_of_decodeFrom` — digits that are read, and written again.
* `KeyDecoder.exact_read`, `KeyDecoder.exact_skipBorder` — leaves and borders.
* `KeyDecoder.accepts` — the decoder's account of both.
-/

namespace RecordCodec

/-! ### Digits -/

namespace Hex

/-- The byte is an upper-case digit. -/
def isUpper (b : UInt8) : Bool :=
  65 ≤ b && b ≤ 70

/-- A digit in lower case. -/
def lower (b : UInt8) : UInt8 :=
  if isUpper b then b + 32 else b

/-- A digit that reads as a number is written as this number, but for its case. -/
theorem digit_of_value? {b n : UInt8} (h : value? b = some n) : n < 16 ∧ digit n = lower b := by
  have all : ∀ m : Fin 256, ∀ k ∈ value? (UInt8.ofNat m),
      k < 16 ∧ digit k = lower (UInt8.ofNat m) := by
    decide +kernel
  have same := all ⟨b.toNat, b.toNat_lt⟩ n
  rw [UInt8.ofNat_toNat] at same
  exact same h

theorem valueAt_eq_ok {b n : UInt8} {place : Nat} (h : valueAt b place = .ok n) :
    value? b = some n := by
  rw [valueAt] at h
  cases hvalue : value? b with
  | none =>
    rw [hvalue] at h
    cases h
  | some m =>
    rw [hvalue] at h
    exact congrArg some (Except.ok.inj h)

theorem halves {h l : UInt8} (hh : h < 16) (hl : l < 16) :
    (16 * h + l) / 16 = h ∧ (16 * h + l) % 16 = l := by
  have hh' := UInt8.lt_iff_toNat_lt.mp hh
  have hl' := UInt8.lt_iff_toNat_lt.mp hl
  have hsum : (16 * h + l).toNat = 16 * h.toNat + l.toNat := by
    rw [UInt8.toNat_add, UInt8.toNat_mul]
    show (16 * h.toNat % 256 + l.toNat) % 256 = _
    change h.toNat < 16 at hh'
    change l.toNat < 16 at hl'
    omega
  change h.toNat < 16 at hh'
  change l.toNat < 16 at hl'
  constructor
  · refine UInt8.toNat_inj.mp ?_
    rw [UInt8.toNat_div, hsum]
    show (16 * h.toNat + l.toNat) / 16 = _
    omega
  · refine UInt8.toNat_inj.mp ?_
    rw [UInt8.toNat_mod, hsum]
    show (16 * h.toNat + l.toNat) % 16 = _
    omega

/-- **Digits that read as bytes** are what is written for the bytes, but for their case. -/
theorem encode_of_decodeFrom {width place : Nat} {digits bs : Bytes}
    (hlength : digits.length = 2 * width) (h : decodeFrom place digits = .ok bs) :
    bs.length = width ∧ encode bs = digits.map lower := by
  fun_induction decodeFrom place digits generalizing width bs with
  | case1 | case2 => cases h
  | case3 place high low rest n hhigh m hlow ih =>
    obtain ⟨tail, hrest, rfl⟩ : ∃ tail, decodeFrom (place + 2) rest = .ok tail ∧
        (16 * n + m) :: tail = bs := by
      cases hrest : decodeFrom (place + 2) rest with
      | error fault =>
        rw [hrest] at h
        cases h
      | ok tail =>
        rw [hrest] at h
        exact ⟨tail, rfl, Except.ok.inj h⟩
    obtain ⟨hn, hhigh'⟩ := digit_of_value? (valueAt_eq_ok hhigh)
    obtain ⟨hm, hlow'⟩ := digit_of_value? (valueAt_eq_ok hlow)
    obtain ⟨hdiv, hmod⟩ := halves hn hm
    obtain ⟨width, rfl⟩ : ∃ w, width = w + 1 := by
      refine ⟨width - 1, ?_⟩
      rw [List.length_cons] at hlength
      omega
    have hlength' : rest.length = 2 * width := by
      rw [List.length_cons, List.length_cons] at hlength
      omega
    obtain ⟨hlen, htail⟩ := ih hlength' hrest
    refine ⟨congrArg (· + 1) hlen, ?_⟩
    rw [encode, List.flatMap_cons, hdiv, hmod, hhigh', hlow', ← encode, htail]
    rfl
  | case4 digits place hshort =>
    obtain rfl := Except.ok.inj h
    rcases digits with _ | ⟨high, _ | ⟨low, rest⟩⟩
    · rw [List.length_nil] at hlength
      exact ⟨by rw [List.length_nil]; omega, rfl⟩
    · rw [List.length_singleton] at hlength
      omega
    · exact absurd rfl (hshort high low rest)

end Hex

/-! ### What the bytes of a key belong to -/

/-- What a byte of a key belongs to. -/
inductive KeyByte where
  /-- A number, or a length. -/
  | digit
  /-- A truth value, or the content of a block or text. -/
  | content
  /-- A border, which has this byte in this place. -/
  | border (byte : UInt8)
  deriving DecidableEq, Repr

namespace KeyByte

/-- The byte as it is written, where another one was read. -/
def written : KeyByte → UInt8 → UInt8
  | .digit, b => Hex.lower b
  | .content, b => b
  | .border byte, _ => byte

/-- The byte was read as it is written. -/
def isTidy : KeyByte → UInt8 → Bool
  | .digit, b => !Hex.isUpper b
  | .content, _ => true
  | .border byte, b => byte == b

theorem written_of_isTidy {k : KeyByte} {b : UInt8} (h : k.isTidy b) : k.written b = b := by
  cases k with
  | digit =>
    have hcase : Hex.isUpper b = false := by simpa [isTidy] using h
    simp [written, Hex.lower, hcase]
  | content => rfl
  | border byte => exact eq_of_beq h

end KeyByte

/-- What the bytes of a value in a key belong to. -/
def Kind.keyBytes : (k : Kind) → k.Value → List KeyByte
  | .u32, _ => List.replicate 8 .digit
  | .u16, _ => List.replicate 4 .digit
  | .u8, _ => List.replicate 2 .digit
  | .bool, _ => [.content]
  | .fixed, bs => List.replicate bs.length .content
  | .block _, b => List.replicate 8 .digit ++ List.replicate b.length .content
  | .text, s => List.replicate 8 .digit ++ List.replicate (utf8 s).length .content

/-- What the bytes of a stop belong to. -/
def Stop.keyBytes (border : Bytes) : Stop → List KeyByte
  | .leaf l => l.kind.keyBytes l.value ++ border.map .border
  | .close => border.map .border

/-- What the bytes of the key of a record belong to. -/
def Record.keyBytes (border : Bytes) (r : Record) : List KeyByte :=
  r.stops.flatMap (Stop.keyBytes border)

/-- Bytes that were read as a key, as they are written. -/
def rewritten (marks : List KeyByte) (bs : Bytes) : Bytes :=
  List.zipWith KeyByte.written marks bs

/-- All bytes were read as they are written. -/
def isTidy (marks : List KeyByte) (bs : Bytes) : Bool :=
  (marks.zip bs).all fun p => p.1.isTidy p.2

section

variable {bs bs' border : Bytes} {marks marks' : List KeyByte}

theorem rewritten_append (h : marks.length = bs.length) :
    rewritten (marks ++ marks') (bs ++ bs') = rewritten marks bs ++ rewritten marks' bs' :=
  List.zipWith_append h

theorem rewritten_digits {n : Nat} (h : bs.length = n) :
    rewritten (List.replicate n .digit) bs = bs.map Hex.lower := by
  induction bs generalizing n with
  | nil =>
    obtain rfl := h
    rfl
  | cons b bs ih =>
    obtain rfl := h
    exact congrArg (Hex.lower b :: ·) (ih rfl)

theorem rewritten_content {n : Nat} (h : bs.length = n) :
    rewritten (List.replicate n .content) bs = bs := by
  induction bs generalizing n with
  | nil =>
    obtain rfl := h
    rfl
  | cons b bs ih =>
    obtain rfl := h
    exact congrArg (b :: ·) (ih rfl)

theorem rewritten_border (h : bs.length = border.length) :
    rewritten (border.map .border) bs = border := by
  induction border generalizing bs with
  | nil => rfl
  | cons b border ih =>
    cases bs with
    | nil => cases h
    | cons b' bs => exact congrArg (b :: ·) (ih (Nat.succ.inj h))

/-- Where all bytes are as they are written, there is nothing to rewrite. -/
theorem rewritten_of_isTidy (h : marks.length = bs.length) (htidy : isTidy marks bs) :
    rewritten marks bs = bs := by
  induction marks generalizing bs with
  | nil => exact (List.length_eq_zero_iff.mp h.symm).symm
  | cons mark marks ih =>
    cases bs with
    | nil => cases h
    | cons b bs =>
      rw [isTidy, List.zip_cons_cons, List.all_cons, Bool.and_eq_true] at htidy
      rw [rewritten, List.zipWith_cons_cons, KeyByte.written_of_isTidy htidy.1]
      exact congrArg (b :: ·) (ih (Nat.succ.inj h) htidy.2)

end

/-- The bytes are the token of the leaf, but for the case of digits. -/
structure Leaf.KeyedFrom (l : Leaf) (data : Bytes) : Prop where
  keyable : l.isKeyable
  length : (l.kind.keyBytes l.value).length = data.length
  token : l.kind.token l.value = rewritten (l.kind.keyBytes l.value) data

namespace Leaf.KeyedFrom

variable {bs data : Bytes} {width : Nat}

/-- A number is its digits. -/
theorem of_digits (name : String) {k : Kind} {v : k.Value} (hkeyable : k.isKeyable v)
    (hmarks : k.keyBytes v = List.replicate (2 * width) .digit) (htoken : k.token v = Hex.encode bs)
    (hbs : bs.length = width) (hdigits : Hex.encode bs = data.map Hex.lower) :
    KeyedFrom ⟨name, k, v⟩ data := by
  have hlength : data.length = 2 * width := by
    rw [← hbs, ← Hex.length_encode, hdigits, List.length_map]
  refine ⟨hkeyable, ?_, ?_⟩
  · rw [hmarks, List.length_replicate, hlength]
  · rw [htoken, hmarks, rewritten_digits hlength, hdigits]

/-- Content is behind the digits of its length. -/
theorem of_measured (name : String) {k : Kind} {v : k.Value} {digits : Bytes}
    (hkeyable : k.isKeyable v)
    (hmarks : k.keyBytes v = List.replicate 8 .digit ++ List.replicate bs.length .content)
    (htoken : k.token v = Hex.encode (bigEndian 4 bs.length) ++ bs)
    (hdigits : Hex.encode (bigEndian 4 bs.length) = digits.map Hex.lower) :
    KeyedFrom ⟨name, k, v⟩ (digits ++ bs) := by
  have hlength : digits.length = 8 := by
    rw [← List.length_map Hex.lower, ← hdigits, Hex.length_encode, length_bigEndian]
  have hreplicate : (List.replicate 8 KeyByte.digit).length = digits.length := by
    rw [List.length_replicate, hlength]
  refine ⟨hkeyable, ?_, ?_⟩
  · rw [hmarks, List.length_append, List.length_append, hreplicate, List.length_replicate]
  · rw [htoken, hmarks, rewritten_append hreplicate, rewritten_digits hlength,
      rewritten_content rfl, hdigits]

end Leaf.KeyedFrom

/-- The bytes are the token of the stop, but for the case of digits and the bytes of the border. -/
structure Stop.KeyedFrom (border : Bytes) (s : Stop) (data : Bytes) : Prop where
  keyable : ∀ l, s = .leaf l → l.isKeyable
  length : (s.keyBytes border).length = data.length
  token : s.token border = rewritten (s.keyBytes border) data

namespace Stop.KeyedFrom

variable {border data gap : Bytes}

theorem leaf {l : Leaf} (h : l.KeyedFrom data) (hgap : gap.length = border.length) :
    KeyedFrom border (.leaf l) (data ++ gap) where
  keyable := by
    rintro l' hl'
    obtain rfl := Stop.leaf.inj hl'
    exact h.keyable
  length := by
    rw [Stop.keyBytes, List.length_append, List.length_append, List.length_map, h.length, hgap]
  token := by
    rw [Stop.keyBytes, rewritten_append h.length, rewritten_border hgap, ← h.token]
    rfl

theorem close (hgap : gap.length = border.length) : KeyedFrom border .close gap where
  keyable _ := nofun
  length := by rw [Stop.keyBytes, List.length_map, hgap]
  token := (rewritten_border hgap).symm

end Stop.KeyedFrom

namespace KeyDecoder

/-- The terms on which a key decoder reads. -/
def terms (m : KeyDecoder) (firm : Prop) : Terms KeyDecoder :=
  ⟨m, fun e => e.isShortage, firm⟩

variable {m : KeyDecoder} {firm : Prop}

theorem lacks_exhausted {requested left : Nat} (h : left < requested) :
    (terms m firm).lacks (.bufferExhausted requested left) :=
  decide_eq_true h

/-! ### Leaves -/

theorem exact_take (n : Nat) :
    Act.Exact (terms m firm) (take n) fun a data => a = data ∧ data.length = n :=
  Act.exact_cut_bytes lacks_exhausted n

theorem exact_getDigits (width : Nat) :
    Act.Exact (terms m firm) (getDigits width) fun n data =>
      ∃ bs, n = ofBigEndian bs ∧ bs.length = width ∧ Hex.encode bs = data.map Hex.lower := by
  refine (Act.Exact.judge (exact_take (2 * width)) ?_).mono ?_
  · intro digits
    cases hdecode : Hex.decode digits with
    | error fault => exact .inr fun _ => ⟨_, rfl⟩
    | ok bs => exact .inl ⟨ofBigEndian bs, fun _ => rfl⟩
  · rintro n data ⟨digits, ⟨rfl, hlength⟩, hconsent⟩
    cases hdecode : Hex.decode digits with
    | error fault =>
      have hfail := congrFun (hconsent m) (.start .decode .storage 0 m)
      rw [hdecode] at hfail
      cases hfail
    | ok bs =>
      have hvalue := congrFun (hconsent m) (.start .decode .storage 0 m)
      rw [hdecode] at hvalue
      obtain ⟨hbs, hdigits⟩ := Hex.encode_of_decodeFrom hlength hdecode
      have hn : ofBigEndian bs = n := Except.ok.inj (congrArg Outcome.result hvalue)
      exact ⟨bs, hn.symm, hbs, hdigits⟩

/-- Digits taken for a value. -/
theorem exact_number {α : Type} (width : Nat) (value : Nat → α) :
    Act.Exact (terms m firm)
      (do
        let n ← getDigits width
        pure (value n))
      fun v data =>
        ∃ bs, v = value (ofBigEndian bs) ∧ bs.length = width ∧
          Hex.encode bs = data.map Hex.lower := by
  refine ((exact_getDigits width).bind fun _ => Act.exact_pure _).mono ?_
  rintro v - ⟨_, data, -, rfl, ⟨bs, rfl, hbs, hdigits⟩, rfl, rfl⟩
  rw [List.append_nil]
  exact ⟨bs, rfl, hbs, hdigits⟩

theorem exact_getMeasured :
    Act.Exact (terms m firm) getMeasured fun a data =>
      a.length < UInt32.size ∧
        ∃ digits, data = digits ++ a ∧
          Hex.encode (bigEndian 4 a.length) = digits.map Hex.lower := by
  refine ((exact_getDigits 4).bind fun n => exact_take n).mono ?_
  rintro a - ⟨_, digits, a, rfl, ⟨bs, rfl, hbs, hdigits⟩, rfl, hlength⟩
  rw [hlength, bigEndian_ofBigEndian hbs]
  exact ⟨ofBigEndian_lt_word hbs, digits, rfl, hdigits⟩

/-- One byte that is one of two flags. -/
theorem exact_flag (name : String) (old : Bool) :
    Act.Exact (terms m firm) (read .bool name old) fun v data =>
      data = [if v then 49 else 48] := by
  refine ((exact_take 1).bind
    (R := fun bs v d => UInt8.ofNat (ofBigEndian bs) = (if v then 49 else 48) ∧ d = [])
    fun bs => ?_).mono ?_
  · by_cases hone : UInt8.ofNat (ofBigEndian bs) = 49
    · simp only [if_pos hone]
      refine (Act.exact_pure true).mono ?_
      rintro v d ⟨rfl, rfl⟩
      exact ⟨hone, rfl⟩
    · by_cases hzero : UInt8.ofNat (ofBigEndian bs) = 48
      · simp only [if_neg hone, if_pos hzero]
        refine (Act.exact_pure false).mono ?_
        rintro v d ⟨rfl, rfl⟩
        exact ⟨hzero, rfl⟩
      · simp only [if_neg hone, if_neg hzero]
        exact Act.exact_fail _ _
  · rintro v - ⟨bs, data, -, rfl, ⟨rfl, hlength⟩, hflag, rfl⟩
    obtain ⟨b, rfl⟩ := List.length_eq_one_iff.mp hlength
    rw [ofBigEndian_byte] at hflag
    rw [List.append_nil, hflag]

/-- **What is accepted as a leaf** is the token of the leaf, but for the case of digits. -/
theorem exact_read (kind : Kind) (name : String) (old : kind.Value) :
    Act.Exact (terms m firm) (read kind name old) fun v data =>
      kind.fixedLength old = kind.fixedLength v ∧ Leaf.KeyedFrom ⟨name, kind, v⟩ data ∧
        (kind.token old ≠ [] → data ≠ []) := by
  have hsome : ∀ {k : Kind} {v : k.Value} {data : Bytes}, Leaf.KeyedFrom ⟨name, k, v⟩ data →
      k.keyBytes v ≠ [] → data ≠ [] := by
    rintro k v data hkeyed hmarks rfl
    exact hmarks (List.length_eq_zero_iff.mp hkeyed.length)
  cases kind with
  | u32 =>
    refine (exact_number 4 UInt32.ofNat).mono ?_
    rintro v data ⟨bs, rfl, hbs, hdigits⟩
    have htoken : Kind.token .u32 (UInt32.ofNat (ofBigEndian bs)) = Hex.encode bs :=
      congrArg Hex.encode (bigEndian_ofBigEndian_word hbs)
    have hkeyed := Leaf.KeyedFrom.of_digits name rfl rfl htoken hbs hdigits
    exact ⟨rfl, hkeyed, fun _ => hsome hkeyed (List.cons_ne_nil _ _)⟩
  | u16 =>
    refine (exact_number 2 UInt16.ofNat).mono ?_
    rintro v data ⟨bs, rfl, hbs, hdigits⟩
    have htoken : Kind.token .u16 (UInt16.ofNat (ofBigEndian bs)) = Hex.encode bs :=
      congrArg Hex.encode (bigEndian_ofBigEndian_half hbs)
    have hkeyed := Leaf.KeyedFrom.of_digits name rfl rfl htoken hbs hdigits
    exact ⟨rfl, hkeyed, fun _ => hsome hkeyed (List.cons_ne_nil _ _)⟩
  | u8 =>
    refine (exact_number 1 UInt8.ofNat).mono ?_
    rintro v data ⟨bs, rfl, hbs, hdigits⟩
    have htoken : Kind.token .u8 (UInt8.ofNat (ofBigEndian bs)) = Hex.encode bs :=
      congrArg Hex.encode (bigEndian_ofBigEndian_byte hbs)
    have hkeyed := Leaf.KeyedFrom.of_digits name rfl rfl htoken hbs hdigits
    exact ⟨rfl, hkeyed, fun _ => hsome hkeyed (List.cons_ne_nil _ _)⟩
  | bool =>
    refine (exact_flag name old).mono ?_
    rintro v data rfl
    exact ⟨rfl, ⟨rfl, rfl, rfl⟩, fun _ => List.cons_ne_nil _ _⟩
  | fixed =>
    refine (exact_take old.length).mono ?_
    rintro v data ⟨rfl, hlength⟩
    refine ⟨hlength.symm, ⟨rfl, List.length_replicate, (rewritten_content rfl).symm⟩, ?_⟩
    rintro hold rfl
    exact hold (List.length_eq_zero_iff.mp hlength.symm)
  | block flags =>
    refine (exact_getMeasured.bind fun _ => Act.exact_pure _).mono ?_
    rintro v - ⟨bs, data, -, rfl, ⟨hsmall, digits, rfl, hdigits⟩, rfl, rfl⟩
    rw [List.append_nil]
    have hbytes : (ByteBlock.ofBytes (meets flags BlockFlags.owned) bs).toBytes = bs :=
      ByteBlock.toBytes_ofBytes _ bs
    have hkeyed : Leaf.KeyedFrom
        ⟨name, .block flags, .ofBytes (meets flags BlockFlags.owned) bs⟩ (digits ++ bs) := by
      refine .of_measured name (decide_eq_true ?_) ?_ ?_ hdigits
      · rwa [ByteBlock.length, hbytes]
      · rw [Kind.keyBytes, ByteBlock.length, hbytes]
      · rw [Kind.token, ByteBlock.length, hbytes]
    exact ⟨rfl, hkeyed, fun _ => hsome hkeyed (List.cons_ne_nil _ _)⟩
  | text =>
    refine (exact_getMeasured.bind (R := fun bs s d => utf8 s = bs ∧ d = []) fun bs => ?_).mono ?_
    · cases htext : ofUtf8? bs with
      | none => exact Act.exact_fail _ _
      | some s =>
        refine (Act.exact_pure s).mono ?_
        rintro s' d ⟨rfl, rfl⟩
        exact ⟨utf8_of_ofUtf8? htext, rfl⟩
    · rintro s - ⟨-, data, -, rfl, ⟨hsmall, digits, rfl, hdigits⟩, rfl, rfl⟩
      rw [List.append_nil]
      have hkeyed : Leaf.KeyedFrom ⟨name, .text, s⟩ (digits ++ utf8 s) :=
        .of_measured name (decide_eq_true hsmall) rfl rfl hdigits
      exact ⟨rfl, hkeyed, fun _ => hsome hkeyed (List.cons_ne_nil _ _)⟩

/-- The length of the border is a part of the memory that no reading changes. -/
theorem exact_skipBorder :
    Act.Exact (terms m firm) skipBorder fun _ data => data.length = m.borderLength := by
  have htake : Act.Exact (terms m firm) (take m.borderLength >>= fun _ => pure ())
      fun _ data => data.length = m.borderLength := by
    refine ((exact_take m.borderLength).bind fun _ => Act.exact_pure ()).mono ?_
    rintro v - ⟨_, data, -, rfl, ⟨-, hlength⟩, -, rfl⟩
    rwa [List.append_nil]
  refine htake.congr ?_
  intro bs t ht
  have hborder : t.store.borderLength = m.borderLength := by rw [ht.memory]; rfl
  rw [skipBorder, Act.bind_of_ok (a := t.store) rfl, hborder]
  rfl

/-! ### Records -/

/-- **The decoder's account** of leaves, with the borders behind them, and of closes. -/
theorem accepts {border : Bytes} (hborder : border.length = m.borderLength) :
    Accepts (terms m firm) (Stop.token border) (Stop.KeyedFrom border) where
  unread _ := rfl
  exhausted := lacks_exhausted
  count _ _ := nofun
  leaf kind name old := by
    rw [Act.ofVisit_leaf]
    refine ((exact_read kind name old).bind fun _ =>
      exact_skipBorder.bind fun _ => Act.exact_pure _).mono ?_
    rintro v - ⟨_, data, -, rfl, ⟨hfixed, hkeyed, hweight⟩, -, d, -, rfl, hd, rfl, rfl⟩
    rw [List.append_nil]
    refine ⟨hfixed, .leaf hkeyed (hd.trans hborder.symm), ?_⟩
    intro hsome hnone
    obtain ⟨rfl, rfl⟩ := List.append_eq_nil_iff.mp hnone
    have htoken : kind.token old = [] := Classical.byContradiction fun hne => hweight hne rfl
    have hempty : border = [] := List.length_eq_zero_iff.mp (hborder.trans hd.symm)
    rw [Stop.token, htoken, hempty] at hsome
    exact hsome rfl
  close := by
    refine exact_skipBorder.mono ?_
    rintro - data hlength
    refine ⟨.close (hlength.trans hborder.symm), ?_⟩
    rintro hsome rfl
    exact hsome (List.length_eq_zero_iff.mp (hborder.trans hlength.symm))

end KeyDecoder

end RecordCodec
