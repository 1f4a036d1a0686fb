import RecordCodec.Key.Decoder
import RecordCodec.Proofs.Delivery
import RecordCodec.Proofs.Key.Encoding

/-!
# What the key decoder reads

The token of a leaf is read back as the leaf, and the border behind it is passed over. A border is
known to the decoder by its length alone, so what the border consists of is never asked: it may be
made of digits, or stand in the middle of a block. A block is read by its length, whatever its flags
are, so it may contain its terminator.

## Main results

* `KeyDecoder.reads_leaf` — the token of a value is read as the value.
* `KeyDecoder.recovers` — the decoder fills records with what was written.
-/

namespace RecordCodec

namespace KeyDecoder

instance : HoldsCursor KeyDecoder where
  cursor d := d.cursor
  withCursor c d := { d with cursor := c }
  cursor_withCursor _ _ := rfl
  withCursor_cursor _ := rfl
  withCursor_withCursor _ _ _ := rfl

theorem take_eq_cut (n : Nat) : take n = Act.cut (Cursor.cut n) := rfl

/-! ### Leaves -/

section

variable {o : Traversal KeyDecoder} (ho : o.error = none)

include ho

theorem reads_take {data : Bytes} {n : Nat} (hn : data.length = n) :
    Act.Reads (Reading o) (take n) data data [] := by
  rw [take_eq_cut, ← hn]
  refine Act.reads_cut ho ?_
  intro c more h
  exact Cursor.cut_of_rest h

/-- The digits of a number that fits its numeral. -/
theorem reads_getDigits {width n : Nat} (hn : ofBigEndian (bigEndian width n) = n) :
    Act.Reads (Reading o) (getDigits width) n (Hex.encode (bigEndian width n)) [] := by
  have hlength : (Hex.encode (bigEndian width n)).length = 2 * width := by
    rw [Hex.length_encode, length_bigEndian]
  intro rest t ht
  obtain ⟨t', htake, ht'⟩ := reads_take ho hlength rest t ht
  refine ⟨t', ?_, ht'⟩
  simp only [getDigits, Act.bind_apply, Act.store, htake, Hex.decode_encode, hn, Act.pure_apply,
    List.append_nil]

/-- Digits taken for a value. -/
theorem reads_number {α : Type} {width n : Nat} (hn : ofBigEndian (bigEndian width n) = n)
    (value : Nat → α) {a : α} (ha : value n = a) :
    Act.Reads (Reading o)
      (do
        let n ← getDigits width
        pure (value n))
      a (Hex.encode (bigEndian width n)) [] := by
  subst ha
  exact (reads_getDigits ho hn).bind_still (Act.reads_pure _)

theorem reads_getMeasured {data : Bytes} (h : data.length < UInt32.size) :
    Act.Reads (Reading o) getMeasured data (Hex.encode (bigEndian 4 data.length) ++ data) [] :=
  (reads_getDigits ho (ofBigEndian_bigEndian_four h)).bind (reads_take ho rfl)

/-- **The token of a value is read as the value.** -/
theorem reads_leaf {l : Leaf} (h : l.isKeyable) {old : l.kind.Value}
    (hlen : l.kind.fixedLength l.value = l.kind.fixedLength old) :
    Act.Reads (Reading o) (read l.kind l.name old) (l.kind.delivered l.value)
      (l.kind.token l.value) [] := by
  obtain ⟨name, kind, v⟩ := l
  cases kind with
  | u32 =>
    exact reads_number ho (ofBigEndian_bigEndian_four v.toNat_lt) UInt32.ofNat UInt32.ofNat_toNat
  | u16 =>
    exact reads_number ho (ofBigEndian_bigEndian_two v.toNat_lt) UInt16.ofNat UInt16.ofNat_toNat
  | u8 =>
    exact reads_number ho (ofBigEndian_bigEndian_one v.toNat_lt) UInt8.ofNat UInt8.ofNat_toNat
  | bool =>
    have htake : Act.Reads (Reading o) (take 1) [if v then 49 else 48] [if v then 49 else 48] [] :=
      reads_take ho rfl
    refine htake.bind_still ?_
    cases v with
    | false => exact Act.reads_pure false
    | true => exact Act.reads_pure true
  | fixed => exact reads_take ho hlen
  | block flags =>
    simp only [Leaf.isKeyable, Kind.isKeyable, decide_eq_true_iff] at h
    exact (reads_getMeasured ho h).bind_still (Act.reads_pure _)
  | text =>
    simp only [Leaf.isKeyable, Kind.isKeyable, decide_eq_true_iff] at h
    refine (reads_getMeasured ho h).bind_still ?_
    simp only [ofUtf8?_utf8]
    exact Act.reads_pure v

/-- Bytes as many as the border has are passed over. -/
theorem reads_skipBorder {border : Bytes} (h : border.length = o.store.borderLength) :
    Act.Reads (Reading o) skipBorder () border [] := by
  intro rest t ht
  obtain ⟨t', htake, ht'⟩ := reads_take ho h rest t ht
  obtain ⟨n, rfl, -⟩ := ht
  refine ⟨t', ?_, ht'⟩
  have hsame : (o.advance n).store.borderLength = o.store.borderLength := rfl
  simp only [skipBorder, Act.bind_apply, Act.store, hsame, htake, Act.pure_apply, List.append_nil]

end

/-! ### Records -/

/-- **The decoder fills records** with the values of those whose tokens it reads. -/
theorem recovers {o : Traversal KeyDecoder} (ho : o.error = none) (hdir : o.direction = .decode)
    {border : Bytes} (hborder : border.length = o.store.borderLength) :
    Recovers (Reading o) (Stop.token border) Leaf.isKeyable (fun _ => []) where
  clean := by
    rintro bs t ⟨n, rfl, -⟩
    exact ho
  decodes := by
    rintro bs t ⟨n, rfl, -⟩
    exact hdir
  unread := by
    rintro bs t left ⟨n, rfl, hrest⟩ hleft
    obtain rfl := Option.some.inj hleft
    rw [← hrest]
    exact Cursor.length_rest_le _
  leaf := by
    intro l old rest t hfit hlen ht
    exact visitLeaf_of_reads (reads_leaf ho hfit hlen) (reads_skipBorder ho hborder) ht
  close ht := reads_skipBorder ho hborder _ _ ht

end KeyDecoder

end RecordCodec
