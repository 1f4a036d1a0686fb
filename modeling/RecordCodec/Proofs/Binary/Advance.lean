import RecordCodec.Proofs.Advance
import RecordCodec.Proofs.Binary.Decoding

/-!
# How the binary decoder goes on

The table of kinds, gone through once for everything that does not depend on the input: wherever a
leaf is read, the cursor moves on, or one of a few errors is stored.

## Main definitions

* `Decoder.Fault` — the errors of a decoder.

## Main results

* `Decoder.advances` — the decoder goes on at leaves.
-/

namespace RecordCodec

namespace Decoder

/-- The errors that the decoder stores of itself. More was asked for than is left; or a block has no
terminator; or a text is not UTF-8; or the trailer is wrong. -/
def Fault (c : Cursor) : Error → Prop
  | .bufferExhausted requested remaining => remaining = c.unread ∧ remaining < requested
  | .checksum stored computed => stored ≠ computed
  | .unterminatedField _ | .invalidUtf8 _ => True
  | .typeCode _ _ | .corruptPayload _ _ | .outOfMemory _ | .invalidKey _
  | .embeddedTerminator _ | .lengthOverflow _ _ => False

theorem fault_exhausted (c : Cursor) (n : Nat) (h : c.unread < n) :
    Fault c (.bufferExhausted n c.unread) :=
  ⟨rfl, h⟩

theorem advances_take (n : Nat) : (take (Cursor.cut n)).Advances Fault :=
  Act.advances_cut (Cursor.goesOn_cut fault_exhausted n)

/-- Bytes that are cut off in one piece, taken for a value, and reported. -/
theorem advances_take_saw {α : Type} (n : Nat) (value : Bytes → α) (name : String)
    (shown : α → Shown) :
    (do
      let bs ← take (Cursor.cut n)
      let v := value bs
      saw name (shown v)
      pure v : Act Decoder α).Advances Fault :=
  (advances_take n).bind fun bs => (Act.advances_report _).bind fun _ =>
    Act.advances_pure (value bs)

theorem advances_getWord (name : String) : (getWord name).Advances Fault :=
  advances_take_saw 4 (fun bs => UInt32.ofNat (ofBigEndian bs)) name .u32

theorem advances_getMeasured (name : String) : (getMeasured name).Advances Fault :=
  (advances_getWord name).bind fun n => advances_take n.toNat

/-- The bytes of a block, however it is delimited, and its event. -/
theorem advances_block {act : Act Decoder Bytes} (h : act.Advances Fault) (flags : Mask)
    (name : String) :
    (do
      let bs ← act
      let isOwned := meets flags BlockFlags.owned
      saw name (.block bs.length (leading bs) (some isOwned))
      pure (ByteBlock.ofBytes isOwned bs) : Act Decoder ByteBlock).Advances Fault :=
  h.bind fun _ => (Act.advances_report _).bind fun _ => Act.advances_pure _

theorem advances_read (kind : Kind) (name : String) (v : kind.Value) :
    (read kind name v).Advances Fault := by
  cases kind with
  | u32 => exact advances_getWord name
  | u16 => exact advances_take_saw 2 (fun bs => UInt16.ofNat (ofBigEndian bs)) name .u16
  | u8 => exact advances_take_saw 1 (fun bs => UInt8.ofNat (ofBigEndian bs)) name .u8
  | bool => exact advances_take_saw 1 (fun bs => ofBigEndian bs != 0) name .bool
  | fixed => exact advances_take_saw v.length id name fun bs => .fixed bs.length (leading bs)
  | block flags =>
    simp only [read]
    by_cases hterm : meets flags BlockFlags.terminated
    · simp only [if_pos hterm]
      refine advances_block ?_ flags name
      exact Act.advances_cut (Cursor.goesOn_cutTerminated fun _ => trivial)
    · simp only [if_neg hterm]
      exact advances_block (advances_getMeasured name) flags name
  | text =>
    refine (advances_getMeasured name).bind fun bs => ?_
    cases ofUtf8? bs with
    | none => exact Act.advances_fail fun _ => trivial
    | some s => exact (Act.advances_report _).bind fun _ => Act.advances_pure s

/-- **The decoder goes on at leaves.** -/
theorem advances : Codec.Advances Decoder Fault where
  visit := advances_read
  close := Act.advances_pure ()
  unread _ := rfl
  exhausted := fault_exhausted

end Decoder

end RecordCodec
