import RecordCodec.Binary.Decoder
import RecordCodec.Proofs.Binary.Form
import RecordCodec.Proofs.Delivery

/-!
# What the binary decoder reads

The layout of a leaf is read back as the leaf, whatever follows it; by the laws of delivery the same
is then true of records. Only for a value that has a binary form, of course: a length that did not
fit its field, or a terminator in the middle of a block, would cut the input in another place.

The trailer is looked at before anything is read. What it decides does not depend on how the input
came about: any input of four bytes or more is some bytes and a four-byte trailer, and the decoder
compares the checksum of the former with the number in the latter (`Decoder.verify_eq`).

## Main results

* `Decoder.reads_leaf` — the form of a leaf is read as the leaf.
* `Decoder.recovers` — the decoder fills records with what was written.
* `Decoder.verify_eq` — what the decoder makes of a trailer.
-/

namespace RecordCodec

namespace Decoder

/-! ### Leaves -/

instance : HoldsCursor Decoder where
  cursor d := d.cursor
  withCursor c d := { d with cursor := c }
  cursor_withCursor _ _ := rfl
  withCursor_cursor _ := rfl
  withCursor_withCursor _ _ _ := rfl

theorem take_eq_cut (cut : Cursor → Except Error (Bytes × Cursor)) : take cut = Act.cut cut := rfl

section

variable {o : Traversal Decoder} (ho : o.error = none)

include ho

theorem reads_take {data : Bytes} {n : Nat} (hn : data.length = n) :
    Act.Reads (Reading o) (take (Cursor.cut n)) data data [] := by
  rw [take_eq_cut, ← hn]
  refine Act.reads_cut ho ?_
  intro c more h
  exact Cursor.cut_of_rest h

/-- Bytes that are cut off in one piece, taken for a value, and reported. -/
theorem reads_take_saw {α : Type} {data : Bytes} {n : Nat} (hn : data.length = n)
    (value : Bytes → α) {a : α} (ha : value data = a) (name : String) (shown : α → Shown) :
    Act.Reads (Reading o)
      (do
        let bs ← take (Cursor.cut n)
        let v := value bs
        saw name (shown v)
        pure v)
      a data [.field .read name (shown a)] := by
  subst ha
  exact (reads_take ho hn).bind_still ((Act.reads_report _).bind (Act.reads_pure _))

theorem reads_getWord (name : String) (v : UInt32) :
    Act.Reads (Reading o) (getWord name) v (bigEndian 4 v.toNat) [.field .read name (.u32 v)] :=
  reads_take_saw ho (length_bigEndian 4 v.toNat) (fun bs => UInt32.ofNat (ofBigEndian bs))
    (ofBigEndian_word v) name .u32

theorem reads_getMeasured (name : String) {data : Bytes} (h : data.length < UInt32.size) :
    Act.Reads (Reading o) (getMeasured name) data (bigEndian 4 data.length ++ data)
      [.field .read name (.u32 (UInt32.ofNat data.length))] := by
  have hword := reads_getWord ho name (UInt32.ofNat data.length)
  rw [UInt32.toNat_ofNat_of_lt' h] at hword
  exact hword.bind (reads_take ho (UInt32.toNat_ofNat_of_lt' h).symm)

theorem reads_terminated (name : String) {data : Bytes} (h : data.contains 0 = false) :
    Act.Reads (Reading o) (take (Cursor.cutTerminated name)) data (data ++ [0]) [] := by
  rw [take_eq_cut]
  refine Act.reads_cut ho ?_
  intro c more hrest
  exact Cursor.cutTerminated_of_rest h hrest

omit ho in
/-- The bytes of a block, however it is delimited, and its event. -/
theorem reads_block {act : Act Decoder Bytes} {flags : Mask} {b : ByteBlock} {data : Bytes}
    {log : List Event} (name : String) (h : Act.Reads (Reading o) act b.toBytes data log) :
    Act.Reads (Reading o)
      (do
        let bs ← act
        let isOwned := meets flags BlockFlags.owned
        saw name (.block bs.length (leading bs) (some isOwned))
        pure (ByteBlock.ofBytes isOwned bs))
      (Kind.delivered (.block flags) b) data
      (log ++
        [.field .read name (.block b.length (leading b.toBytes) (Flow.read.owner flags))]) :=
  h.bind_still ((Act.reads_report _).bind (Act.reads_pure _))

/-- **The form of a leaf is read as the leaf.** -/
theorem reads_leaf {l : Leaf} (h : l.isEncodable) {old : l.kind.Value}
    (hlen : l.kind.fixedLength l.value = l.kind.fixedLength old) :
    Act.Reads (Reading o) (read l.kind l.name old) (l.kind.delivered l.value) l.layout
      (Stop.events .read (.leaf l)) := by
  obtain ⟨name, kind, v⟩ := l
  cases kind with
  | u32 => exact reads_getWord ho name v
  | u16 =>
    exact reads_take_saw ho (length_bigEndian 2 v.toNat)
      (fun bs => UInt16.ofNat (ofBigEndian bs)) (ofBigEndian_half v) name .u16
  | u8 =>
    have hlayout : (⟨name, .u8, v⟩ : Leaf).layout = [v] := bigEndian_byte v
    rw [hlayout]
    exact reads_take_saw ho rfl (fun bs => UInt8.ofNat (ofBigEndian bs)) (ofBigEndian_byte v)
      name .u8
  | bool =>
    have hvalue : (ofBigEndian [if v then 1 else 0] != 0) = v := by cases v <;> rfl
    exact reads_take_saw ho rfl (fun bs => ofBigEndian bs != 0) hvalue name .bool
  | fixed =>
    exact (reads_take ho hlen).bind_still ((Act.reads_report _).bind (Act.reads_pure _))
  | block flags =>
    simp only [Leaf.isEncodable, Kind.isEncodable] at h
    simp only [read, Leaf.layout, Kind.layout, Stop.events, Kind.events]
    by_cases hterm : meets flags BlockFlags.terminated
    · rw [if_pos hterm, Bool.not_eq_true'] at h
      simp only [if_pos hterm]
      exact reads_block name (reads_terminated ho name h)
    · rw [if_neg hterm, decide_eq_true_iff] at h
      simp only [if_neg hterm]
      exact reads_block name (reads_getMeasured ho name h)
  | text =>
    simp only [Leaf.isEncodable, Kind.isEncodable, decide_eq_true_iff] at h
    refine (reads_getMeasured ho name h).bind_still ?_
    simp only [ofUtf8?_utf8]
    exact (Act.reads_report _).bind (Act.reads_pure v)

end

/-! ### Records -/

/-- **The decoder fills records** with the values of those whose forms it reads. -/
theorem recovers {o : Traversal Decoder} (ho : o.error = none) (hdir : o.direction = .decode) :
    Recovers (Reading o) Stop.layout Leaf.isEncodable (Stop.events .read) where
  clean := by
    rintro bs t ⟨n, rfl, -⟩
    exact ho
  decodes := by
    rintro bs t ⟨n, rfl, -⟩
    exact hdir
  unread := by
    rintro bs t left ⟨n, rfl, hrest⟩ hleft
    obtain rfl := Option.some.inj hleft
    rw [← hrest]
    exact Cursor.length_rest_le _
  leaf l old rest t hfit hlen ht := by
    have hleaf : l.layout ++ [] ++ rest = l.layout ++ rest := by rw [List.append_nil]
    obtain ⟨t', hvisit, ht'⟩ :=
      visitLeaf_of_reads (reads_leaf ho hfit hlen) (Act.reads_pure ()) (hleaf ▸ ht)
    rw [List.append_nil] at hvisit
    exact ⟨t', hvisit, ht'⟩
  close ht := ⟨_, rfl, ht⟩

/-! ### Trailers -/

/-- What the decoder makes of a trailer. -/
theorem verify_eq {t : Traversal Decoder} {body tail : Bytes} (htail : tail.length = wordSize)
    (hbuffer : t.store.cursor.buffer = body ++ tail) :
    verify t =
      if UInt32.ofNat (ofBigEndian tail) = crc32 body then
        ⟨.ok (), { t with store := ⟨{ t.store.cursor with limit := body.length }, true⟩ },
          [.trailer .read (crc32 body)]⟩
      else (Act.fail (.checksum (UInt32.ofNat (ofBigEndian tail)) (crc32 body)) :
        Act Decoder Unit) t := by
  have hlength : t.store.cursor.buffer.length = body.length + wordSize := by
    rw [hbuffer, List.length_append, htail]
  have hlong : ¬t.store.cursor.buffer.length < wordSize := by
    rw [hlength]
    exact Nat.not_lt.mpr (Nat.le_add_left _ _)
  have hsize : t.store.cursor.buffer.length - wordSize = body.length := by
    rw [hlength, Nat.add_sub_cancel]
  have hstored : t.store.cursor.buffer.drop body.length = tail := by
    rw [hbuffer, List.drop_left]
  have hcomputed : t.store.cursor.buffer.take body.length = body := by
    rw [hbuffer, List.take_left]
  simp only [verify, Act.bind_apply, Act.store, if_neg hlong, hsize, hstored, hcomputed,
    List.nil_append]
  by_cases hright : UInt32.ofNat (ofBigEndian tail) = crc32 body
  · simp only [if_pos hright, Act.bind_apply, Act.report, Act.modifyStore, List.append_nil]
    rw [hright]
  · simp only [if_neg hright]

/-- A decoder that has the trailer out of the way, or looks for none, begins a run with nothing. -/
theorem prepare_of_settled {t : Traversal Decoder}
    (h : t.store.verified || !t.has Options.checksum) : prepare t = ⟨.ok (), t, []⟩ := by
  simp only [prepare, Act.bind_apply, Act.state, h, if_true, Act.pure_apply, List.append_nil]

/-- A decoder that was just started begins with the trailer, if the options ask for one. -/
theorem prepare_start_eq_verify (context : Context) {options : Mask} (buffer : Bytes)
    (h : meets options Options.checksum) :
    prepare (start context options buffer) = verify (start context options buffer) := by
  have hwant : ((start context options buffer).store.verified ||
      !(start context options buffer).has Options.checksum) = false := by
    rw [Traversal.has, start, Traversal.start, h]
    rfl
  simp only [prepare, Act.bind_apply, Act.state, hwant, Bool.false_eq_true, if_false,
    List.nil_append]

end Decoder

end RecordCodec
