import RecordCodec.Proofs.Advance
import RecordCodec.Proofs.Invariant
import RecordCodec.Proofs.Key.Decoding

/-!
# How the key decoder goes on

A key decoder moves its cursor on at leaves, and over borders, or it stores an error: digits that
are none, flags that are neither 0 nor 1, or too few bytes. Since it has no trailer to look for, its
cursor stays in the token in every history.

## Main definitions

* `KeyDecoder.Fault` — the errors of a key decoder.
* `KeyDecoder.Within` — the cursor reads the token.

## Main results

* `KeyDecoder.advances` — the key decoder goes on at leaves, and over borders.
* `KeyDecoder.keeps_within` — the cursor stays in the token.
-/

namespace RecordCodec

namespace KeyDecoder

/-- The errors that the key decoder stores of itself. More was asked for than is left; or a byte is
none that a key may have there; or a text is not UTF-8. -/
def Fault (c : Cursor) : Error → Prop
  | .bufferExhausted requested remaining => remaining = c.unread ∧ remaining < requested
  | .invalidKey _ | .invalidUtf8 _ => True
  | .checksum _ _ | .typeCode _ _ | .corruptPayload _ _ | .outOfMemory _
  | .embeddedTerminator _ | .lengthOverflow _ _ | .unterminatedField _ => False

theorem fault_exhausted (c : Cursor) (n : Nat) (h : c.unread < n) :
    Fault c (.bufferExhausted n c.unread) :=
  ⟨rfl, h⟩

theorem advances_take (n : Nat) : (take n).Advances Fault :=
  Act.advances_cut (Cursor.goesOn_cut fault_exhausted n)

theorem advances_getDigits (width : Nat) : (getDigits width).Advances Fault := by
  refine Act.advances_store.bind fun d => (advances_take (2 * width)).bind fun digits => ?_
  cases Hex.decode digits with
  | error fault => exact Act.advances_fail fun _ => trivial
  | ok bs => exact Act.advances_pure _

theorem advances_getMeasured : getMeasured.Advances Fault :=
  (advances_getDigits 4).bind advances_take

theorem advances_read (kind : Kind) (name : String) (v : kind.Value) :
    (read kind name v).Advances Fault := by
  cases kind with
  | u32 | u16 | u8 => exact (advances_getDigits _).bind fun _ => Act.advances_pure _
  | bool =>
    refine (advances_take 1).bind fun bs => ?_
    by_cases hone : UInt8.ofNat (ofBigEndian bs) = 49
    · simp only [if_pos hone]
      exact Act.advances_pure true
    · simp only [if_neg hone]
      by_cases hzero : UInt8.ofNat (ofBigEndian bs) = 48
      · rw [if_pos hzero]
        exact Act.advances_pure false
      · rw [if_neg hzero]
        exact Act.advances_fail fun _ => trivial
  | fixed => exact advances_take _
  | block flags => exact advances_getMeasured.bind fun _ => Act.advances_pure _
  | text =>
    refine advances_getMeasured.bind fun bs => ?_
    cases ofUtf8? bs with
    | none => exact Act.advances_fail fun _ => trivial
    | some s => exact Act.advances_pure s

theorem advances_skipBorder : skipBorder.Advances Fault :=
  Act.advances_store.bind fun d => (advances_take d.borderLength).bind fun _ =>
    Act.advances_pure ()

/-- **The key decoder goes on at leaves**, and over borders. -/
theorem advances : Codec.Advances KeyDecoder Fault where
  visit := advances_read
  close := advances_skipBorder
  unread _ := rfl
  exhausted := fault_exhausted

/-! ### The place of the cursor -/

/-- The cursor reads the token. -/
def Within (buffer : Bytes) (t : Traversal KeyDecoder) : Prop :=
  t.store.cursor.Whole buffer

theorem within_start (border : Option String) (buffer : Bytes) :
    Within buffer (start border buffer) :=
  Cursor.whole_ofBytes buffer

variable {buffer : Bytes}

/-- **The cursor stays in the token**, whatever is done with the decoder. -/
theorem keeps_within : Codec.Keeps (Within buffer) where
  ignores _ h _ := h
  visit kind name v t h := ((advances_read kind name v).moves t).stays_whole h
  close t h := (advances_skipBorder.moves t).stays_whole h
  openRun := Act.keeps_pure ()
  closeRun := Act.keeps_pure ()
  rewind _ h := h

end KeyDecoder

end RecordCodec
