import RecordCodec.Proofs.Binary.Advance
import RecordCodec.Proofs.Key.Advance
import RecordCodec.Proofs.Acceptance

/-!
# The decoders are lawful

A decoder changes its record, so its visits are no walks, but in what it does to the traversal it is
like any other codec. It leaves the settings alone, and what it stores is what it gives. For the
acts that a decoder is made of this was said where they are defined in general; here they are put
together, once for each kind of leaf.

That an act which succeeds leaves no error is what carries a visit from one leaf to the next.

## Main results

* `Decoder.faithful_read`, `KeyDecoder.faithful_read` — the two decoders at a leaf.
* `visitLeaf_ok` — after a leaf that was visited without failure, the traversal goes on.
-/

namespace RecordCodec

/-! ### The binary decoder -/

namespace Decoder

theorem faithful_take (cut : Cursor → Except Error (Bytes × Cursor)) : (take cut).Faithful :=
  Act.faithful_check.bind fun _ => Act.faithful_store.bind fun _ =>
    (Act.faithful_require _).bind fun _ => (Act.faithful_modifyStore _).bind fun _ =>
      Act.faithful_pure _

theorem faithful_saw (name : String) (shown : Shown) : (saw name shown).Faithful :=
  Act.faithful_report _

theorem faithful_getWord (name : String) : (getWord name).Faithful :=
  (faithful_take _).bind fun _ => (faithful_saw name _).bind fun _ => Act.faithful_pure _

theorem faithful_getMeasured (name : String) : (getMeasured name).Faithful :=
  (faithful_getWord name).bind fun _ => faithful_take _

theorem faithful_read (kind : Kind) (name : String) (v : kind.Value) :
    (read kind name v).Faithful := by
  cases kind with
  | u32 => exact faithful_getWord name
  | u16 | u8 | bool | fixed =>
    exact (faithful_take _).bind fun _ => (faithful_saw name _).bind fun _ => Act.faithful_pure _
  | block flags =>
    simp only [read]
    by_cases hterm : meets flags BlockFlags.terminated
    · simp only [if_pos hterm]
      exact (faithful_take _).bind fun _ => (faithful_saw name _).bind fun _ =>
        Act.faithful_pure _
    · simp only [if_neg hterm]
      exact (faithful_getMeasured name).bind fun _ => (faithful_saw name _).bind fun _ =>
        Act.faithful_pure _
  | text =>
    refine (faithful_getMeasured name).bind fun bs => ?_
    cases ofUtf8? bs with
    | none => exact Act.faithful_fail _
    | some s => exact (faithful_saw name _).bind fun _ => Act.faithful_pure s

instance : Codec.Lawful Decoder where
  visit_faithful := faithful_read
  close_faithful := Act.faithful_pure ()

instance : Codec.Freezing Decoder :=
  advances.freezing

end Decoder

/-! ### The key decoder -/

namespace KeyDecoder

theorem faithful_take (n : Nat) : (take n).Faithful :=
  Act.faithful_check.bind fun _ => Act.faithful_store.bind fun _ =>
    (Act.faithful_require _).bind fun _ => (Act.faithful_modifyStore _).bind fun _ =>
      Act.faithful_pure _

theorem faithful_getDigits (width : Nat) : (getDigits width).Faithful := by
  refine Act.faithful_store.bind fun d => (faithful_take (2 * width)).bind fun digits => ?_
  cases Hex.decode digits with
  | error fault => exact Act.faithful_fail _
  | ok bs => exact Act.faithful_pure _

theorem faithful_getMeasured : getMeasured.Faithful :=
  (faithful_getDigits 4).bind faithful_take

theorem faithful_read (kind : Kind) (name : String) (v : kind.Value) :
    (read kind name v).Faithful := by
  cases kind with
  | u32 | u16 | u8 => exact (faithful_getDigits _).bind fun _ => Act.faithful_pure _
  | bool =>
    refine (faithful_take 1).bind fun bs => ?_
    by_cases hone : UInt8.ofNat (ofBigEndian bs) = 49
    · simp only [if_pos hone]
      exact Act.faithful_pure true
    · simp only [if_neg hone]
      by_cases hzero : UInt8.ofNat (ofBigEndian bs) = 48
      · rw [if_pos hzero]
        exact Act.faithful_pure false
      · rw [if_neg hzero]
        exact Act.faithful_fail _
  | fixed => exact faithful_take _
  | block flags => exact faithful_getMeasured.bind fun _ => Act.faithful_pure _
  | text =>
    refine faithful_getMeasured.bind fun bs => ?_
    cases ofUtf8? bs with
    | none => exact Act.faithful_fail _
    | some s => exact Act.faithful_pure s

theorem faithful_skipBorder : skipBorder.Faithful :=
  Act.faithful_store.bind fun _ => (faithful_take _).bind fun _ => Act.faithful_pure ()

instance : Codec.Lawful KeyDecoder where
  visit_faithful := faithful_read
  close_faithful := faithful_skipBorder

instance : Codec.Freezing KeyDecoder :=
  advances.freezing

end KeyDecoder

/-! ### Leaves -/

variable {σ : Type} [Codec σ]

/-- **After a leaf** that was visited without failure no error is stored, and the settings are as
they were. -/
theorem visitLeaf_ok [Codec.Lawful σ] {kind : Kind} {name : String} {v : kind.Value}
    {t : Traversal σ} (ht : t.error = none) (h : (visitLeaf kind name v t).result = .ok ()) :
    (visitLeaf kind name v t).state.error = none ∧
      SameSettings t (visitLeaf kind name v t).state := by
  have hleaf : (Act.ofVisit (visitLeaf (σ := σ) kind name v)).Faithful := by
    rw [Act.ofVisit_leaf]
    exact (Codec.Lawful.visit_faithful kind name v).bind fun _ =>
      Codec.Lawful.close_faithful.bind fun _ => Act.faithful_pure _
  have hok := Act.result_ofVisit_eq_ok.mpr ⟨h, rfl⟩
  exact ⟨hleaf.error_of_ok ht hok, hleaf.settings t⟩

end RecordCodec
