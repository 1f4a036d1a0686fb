import RecordCodec.Proofs.Binary.Safety
import RecordCodec.Proofs.Key.Advance

/-!
# Safety of the decoders

Both decoders are safe on every input. A decoder of keys has no trailer to check, so its runs begin
with nothing and its histories need not wait.

## Main results

* `KeyDecoder.guards` — the runs of a key decoder begin well.
* `decoders_safe` — both decoders are safe.
-/

namespace RecordCodec

namespace KeyDecoder

theorem guards (border : Option String) (bs : Bytes) :
    Codec.Guards Fault (fun _ => True) bs (start border bs) where
  advances := advances
  keeps := ⟨fun _ _ _ => trivial, fun _ _ _ _ _ => trivial, fun _ _ => trivial,
    fun _ _ => trivial, fun _ _ => trivial, fun _ _ => trivial⟩
  opens _ _ := trivial
  opens_tells := Act.tells_pure ()
  opens_error _ ht _ := ht
  opens_signals t _ ht e he := by
    rw [show ((Codec.openRun : Act KeyDecoder Unit) t).state.error = t.error from rfl, ht] at he
    cases he
  closes _ := rfl
  inside _ ht := (ht.invariant keeps_within (within_start border bs)).isInside

end KeyDecoder

/-- **The decoders are safe**, on every input, with all options and every border: in every orderly
history of steps that visit data the cursor stays inside of the input, no visit moves it back, and
the errors that come up are those that the decoder may store, and tell the truth about the cursor. A
history waits for a run to succeed where a trailer is to be checked. -/
theorem decoders_safe :
    (∀ (context : Context) (options : Mask) (buffer : Bytes),
      Safe Decoder.Fault Decoder.Ready buffer (meets options Options.checksum)
        (Decoder.start context options buffer)) ∧
    ∀ (border : Option String) (buffer : Bytes),
      Safe KeyDecoder.Fault (fun _ => True) buffer false (KeyDecoder.start border buffer) := by
  refine ⟨fun context options buffer => ?_, fun border buffer => ?_⟩
  · refine (Decoder.guards context options buffer).safe fun hno => ?_
    show !meets options Options.checksum
    rw [hno]
    rfl
  · exact (KeyDecoder.guards border buffer).safe fun _ => trivial

/-- One byte and its trailer. The byte is read in a run, and then there is none left for a field. -/
theorem decoders_safe_past_end :
    let start := Decoder.start .network Options.checksum (sealed Options.checksum [7])
    let visit := Step.visit (.leaf "b" .u8 0)
    let u := (visit.perform (performAll [.run (.strict [.leaf "a" .u8 0])] start).2.1).state
    u.error = some (.bufferExhausted 1 0) ∧ Decoder.Fault u.store.cursor (.bufferExhausted 1 0) :=
  ⟨rfl, (decoders_safe.1 .network Options.checksum (sealed Options.checksum [7])).signals
    [.run (.strict [.leaf "a" .u8 0])] (.visit (.leaf "b" .u8 0)) [] rfl rfl _ rfl⟩

end RecordCodec
