import RecordCodec.Proofs.Binary.Acceptance
import RecordCodec.Proofs.History
import RecordCodec.Proofs.Key.Acceptance
import RecordCodec.Proofs.Key.Advance

/-!
# Extension and truncation

A run that succeeds has consumed some front of its input. That front is all it takes: behind it,
anything may follow, and the run gives the same record; without the last byte of it, or the last
few, there is no record, and the error says that bytes are missing.

Two things in a decoder look beyond the field at hand. The search for a terminator goes as far as
the input does, and a count is compared with all the bytes that are left. The first finds what it
looks for in the consumed bytes or nowhere; the second asks for no more than the items take, if each
of them takes a byte.

## Main definitions

* `Opens` — how a decoder is started, and begins and ends a run.
* `ConsumesExactly` — what a run consumes, it needs, and it needs nothing else.

## Main results

* `Opens.consumesExactly` — so it is for every decoder that accepts in this sense.
* `consumes_exactly` — for the binary decoder and the key decoder.
-/

namespace RecordCodec

variable {σ : Type} [Codec σ] [HoldsCursor σ]

open HoldsCursor

/-- What a run of the record consumes decides what it gives, and all of it is needed. -/
def ConsumesExactly (start : Bytes → Traversal σ) (lacks : Error → Bool) (r : Record) : Prop :=
  ∀ bs, let whole := run r (start bs)
    let k := (cursor whole.state.store).offset
    whole.result = .ok () →
      k ≤ bs.length ∧
      (∀ cs, cs.take k = bs.take k →
        let again := run r (start cs)
        again.result = .ok () ∧ again.value = whole.value ∧
          (cursor again.state.store).offset = k) ∧
      ∀ n < k, ∃ e, (run r (start (bs.take n))).result = .error e ∧ lacks e

/-- A decoder that is started at the front of its input, and whose runs begin and end with
nothing. -/
structure Opens (m : σ) (start : Bytes → Traversal σ) : Prop where
  facing : ∀ bs, Facing m bs (start bs)
  openRun : ∀ bs, Codec.openRun (start bs) = ⟨.ok (), start bs, []⟩
  closeRun : ∀ t : Traversal σ, Codec.closeRun t = ⟨.ok (), t, []⟩
  whole : ∀ bs r, (cursor (run r (start bs)).state.store).Whole bs

namespace Opens

variable {m : σ} {start : Bytes → Traversal σ}

/-- A run whose visit fails with the error that it stored. -/
theorem run_of_failed (h : Opens m start) {bs : Bytes} {r : Record} {e : Error}
    (hvisit : (r.visit (start bs)).result = .error e)
    (hstored : (r.visit (start bs)).state.error = some e) :
    (run r (start bs)).result = .error e := by
  simp only [run, (h.facing bs).clean, h.openRun, hvisit, settle, Act.fail, hstored, h.closeRun,
    Traversal.check]

/-- **What a run consumes, it needs, and nothing else.** -/
theorem consumesExactly (h : Opens m start) {lacks : Error → Bool} {token : Stop → Bytes}
    {spell : Stop → Bytes → Prop} (law : Accepts ⟨m, fun e => lacks e, True⟩ token spell)
    {r : Record} (hr : r.isPlain) (hsome : r.everyBlank (takesByte token)) :
    ConsumesExactly start lacks r := by
  intro bs whole k hrun
  obtain ⟨-, -, hbody, -, hvalue, hstate⟩ := run_succeeded (r := r) (t := start bs)
    (fun u hu => by rwa [h.closeRun u]) hrun
  rw [h.openRun] at hbody hvalue hstate
  rw [h.closeRun] at hstate
  obtain ⟨data, more, rfl, hmore, -, hneeds⟩ := (law.exact_record hr fun _ => hsome).accounts
    (h.facing bs) (Act.result_ofVisit_eq_ok.mpr ⟨hbody, rfl⟩)
  have hneed := hneeds trivial
  have hk : k = data.length := by
    refine (h.whole (data ++ more) r).offset_of_rest ?_
    rw [hstate]
    exact hmore.rest
  rw [hk, List.take_left]
  refine ⟨?_, ?_, ?_⟩
  · rw [List.length_append]
    exact Nat.le_add_right _ _
  · intro cs hcs
    have hsplit := List.take_append_drop data.length cs
    rw [hcs] at hsplit
    obtain ⟨rest, rfl⟩ : ∃ rest, cs = data ++ rest := ⟨_, hsplit.symm⟩
    obtain ⟨t', hvisit, ht'⟩ := hneed.reads rest _ (h.facing (data ++ rest))
    have hagain := run_of_visit (h.facing (data ++ rest)).clean (h.openRun _)
      (Act.eq_of_ofVisit hvisit) (h.closeRun t') ht'.clean
    have hplace := h.whole (data ++ rest) r
    rw [hagain] at hplace
    rw [hagain]
    exact ⟨rfl, hvalue.symm, hplace.offset_of_rest ht'.rest⟩
  · intro n hn
    have hfront : (data ++ more).take n = data.take n := List.take_append_of_le_length (by omega)
    have hback : data.drop n ≠ [] := by
      rw [ne_eq, List.drop_eq_nil_iff]
      omega
    obtain ⟨e, hresult, hstored, he⟩ := hneed.starves (List.take_append_drop n data).symm hback
      (h.facing (data.take n))
    rw [hfront]
    exact ⟨e, h.run_of_failed (Act.result_ofVisit_eq_error.mp hresult) hstored, he⟩

end Opens

/-! ### The two decoders -/

theorem Decoder.opens (context : Context) {options : Mask}
    (h : ¬meets options Options.checksum) :
    Opens ⟨.ofBytes [], false⟩ (Decoder.start context options) where
  facing bs := ⟨rfl, rfl, rfl, Nat.le_refl _, (Cursor.whole_ofBytes bs).rest_eq⟩
  openRun bs := (unframed_start context bs h).prepare
  closeRun _ := rfl
  whole bs r := (run_keeps keeps_unframed r _ (unframed_start context bs h)).whole

theorem KeyDecoder.opens (border : Option String) :
    Opens ⟨.ofBytes [], (borderBytes border).length⟩ (KeyDecoder.start border) where
  facing bs := ⟨rfl, rfl, rfl, Nat.le_refl _, (Cursor.whole_ofBytes bs).rest_eq⟩
  openRun _ := rfl
  closeRun _ := rfl
  whole bs r := run_keeps keeps_within r _ (within_start border bs)

/-- **Exact consumption.** For a plain record each of whose sequences has items that take a byte at
least, what a run from the front of the input consumes is decisive. On any input with the same
front, the run gives the same record and ends in the same place. On less than that front it fails,
and for want of bytes: the binary decoder may also miss a terminator, the key decoder may not. -/
theorem consumes_exactly (context : Context) {options : Mask} (border : Option String)
    {r : Record} (hoptions : ¬meets options Options.checksum) (hr : r.isPlain) :
    (r.everyBlank (takesByte Stop.layout) →
      ConsumesExactly (Decoder.start context options) Error.isCutOff r) ∧
      (r.everyBlank (takesByte (Stop.token (borderBytes border))) →
        ConsumesExactly (KeyDecoder.start border) Error.isShortage r) :=
  ⟨(Decoder.opens context hoptions).consumesExactly Decoder.accepts hr,
    (KeyDecoder.opens border).consumesExactly (KeyDecoder.accepts rfl) hr⟩

/-- A record with a part of every shape, and a border of one byte. -/
theorem consumes_exactly_specimen :
    let r := Record.specimen
    let border := some "/"
    ((run r (Decoder.start .network 0 (r.layout ++ [40]))).result = .ok () ∧
      ConsumesExactly (Decoder.start .network 0) Error.isCutOff r) ∧
      (run r (KeyDecoder.start border (r.token (borderBytes border)))).result = .ok () ∧
        ConsumesExactly (KeyDecoder.start border) Error.isShortage r :=
  have hboth := consumes_exactly .network (some "/")
    (show ¬meets 0 Options.checksum by decide) (show Record.specimen.isPlain by decide)
  ⟨⟨rfl, hboth.1 (by decide)⟩, rfl, hboth.2 (by decide)⟩

end RecordCodec
