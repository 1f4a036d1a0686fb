import RecordCodec.Proofs.Binary.Success
import RecordCodec.Proofs.Moments
import RecordCodec.Proofs.Refusal

/-!
# The frame of an encoder

An encoder writes behind what its sink held when the encoder was started. It goes back too, when it
takes a trailer off, and it takes off four bytes without looking at them. That it never goes back
too far is an invariant: a sink that is marked as ending in a trailer has four bytes at least behind
its old end. Failed runs, trailers that found no room, and errors taken away in the middle of a
record all leave the invariant alone, because only two places touch the mark: the one that takes a
trailer off, and the one that has just written it.

Nothing is asked of the records, of the history, or of the sink.

## Main definitions

* `Encoder.Frame` — how an encoder stands to the sink that it was started on.

## Main results

* `Encoder.put_cases`, `Encoder.putTrailer_cases` — what may come of a write.
* `Encoder.keeps_frame` — every act of the encoder keeps the frame.
* `Encoder.frame_of_history` — the frame at every moment, and the trailer after every run.
-/

namespace RecordCodec

namespace Encoder

/-- How an encoder stands to the sink that it was started on. -/
structure Frame (s : Sink) (options : Mask) (t : Traversal Encoder) : Prop where
  options : t.options = options
  origin : t.store.origin = s.length
  /-- The bytes from before are there, unchanged. -/
  before : t.store.sink.committed.take s.length = s.committed
  /-- The end is not before the old end. -/
  length : s.length ≤ t.store.sink.length
  /-- There is a trailer to take off, if one is to be taken off. -/
  framed : t.store.framed → s.length + wordSize ≤ t.store.sink.length
  /-- The sink counts its committed bytes right, if it ever did. -/
  counted : s.committed.length = s.length →
    t.store.sink.committed.length = t.store.sink.length

variable {s : Sink} {options : Mask} {t : Traversal Encoder}

theorem frame_start (context : Context) (options : Mask) (s : Sink) :
    Frame s options (start context options s) where
  options := rfl
  origin := rfl
  before := by
    show s.committed.take s.length = s.committed
    cases s with
    | fixed storage n =>
      show (storage.take n).take n = storage.take n
      rw [List.take_take, Nat.min_self]
    | growable bs limit => exact List.take_length
  length := Nat.le_refl _
  framed := nofun
  counted h := h

/-! ### Writes -/

/-- **What may come of a write**: an error, and nothing written; or there was room, and all of it is
written. -/
theorem put_cases (data : Bytes) (t : Traversal Encoder) :
    (∃ e, (put data t).result = .error e ∧ (put data t).state = { t with error := some e }) ∨
      (t.store.sink.reserve data.length = .ok () ∧ (put data t).result = .ok () ∧
        (put data t).state =
          { t with store := { t.store with sink := t.store.sink.extend data } }) := by
  rcases Option.eq_none_or_eq_some t.error with ht | ⟨e, ht⟩
  · cases hroom : t.store.sink.reserve data.length with
    | ok u =>
      have hput := writes_put (e := t.store) data t t.store.sink ht rfl hroom
      exact .inr ⟨rfl, by rw [hput], by rw [hput]; rfl⟩
    | error e =>
      have hcheck : t.check = .ok () := Traversal.check_eq_ok_iff.mpr ht
      have happend : t.store.sink.append data = .error e := by
        rw [Sink.append, hroom]
        rfl
      refine .inl ⟨e, ?_, ?_⟩ <;>
        simp only [put, Act.bind_apply, Act.check, hcheck, Act.store, happend, Act.require,
          Act.fail, ht]
  · obtain ⟨hresult, hstate⟩ := refuses_put data t e ht
    exact .inl ⟨e, hresult, by rw [hstate, ← ht]⟩

/-- What may come of a trailer: an error, and nothing written; or there was room for it. -/
theorem putTrailer_cases (t : Traversal Encoder) :
    (∃ e, (putTrailer t).result = .error e ∧
        (putTrailer t).state = { t with error := some e }) ∨
      (t.store.sink.reserve wordSize = .ok () ∧ (putTrailer t).state =
        { t with store := ⟨t.store.sink.extend (bigEndian 4 (crc32 t.store.body).toNat),
          t.store.origin, true⟩ }) := by
  have hstore : (Act.store : Act Encoder Encoder) t = ⟨.ok t.store, t, []⟩ := rfl
  rcases put_cases (bigEndian 4 (crc32 t.store.body).toNat) t with
    ⟨e, hresult, hstate⟩ | ⟨hroom, hresult, hstate⟩
  · refine .inl ⟨e, ?_, ?_⟩
    · simp only [putTrailer, Act.bind_apply, hstore, hresult]
    · simp only [putTrailer, Act.bind_apply, hstore, hresult, hstate]
  · rw [length_bigEndian] at hroom
    refine .inr ⟨hroom, ?_⟩
    simp only [putTrailer, Act.bind_apply, hstore, hresult, hstate, Act.modifyStore, Act.report]

/-! ### What keeps the frame -/

theorem ignoresError_frame : IgnoresError (Frame s options) :=
  fun _ ht _ => ⟨ht.options, ht.origin, ht.before, ht.length, ht.framed, ht.counted⟩

namespace Frame

/-- A write with room goes behind everything. -/
theorem extend (h : Frame s options t) {data : Bytes}
    (hroom : t.store.sink.reserve data.length = .ok ()) :
    Frame s options { t with store := { t.store with sink := t.store.sink.extend data } } := by
  by_cases hdata : data = []
  · rwa [hdata, Sink.extend_nil]
  · have hcounted := Sink.length_committed_of_room hroom (List.length_pos_iff.mpr hdata)
    have hlength := h.length
    have hcommitted := Sink.committed_extend hroom
    refine ⟨h.options, h.origin, ?_, ?_, fun hframed => ?_, fun _ => ?_⟩
    · show (t.store.sink.extend data).committed.take s.length = s.committed
      rw [hcommitted, List.take_append_of_le_length (by omega)]
      exact h.before
    · rw [Sink.length_extend]
      omega
    · have hmore := h.framed hframed
      rw [Sink.length_extend]
      omega
    · rw [hcommitted, Sink.length_extend, List.length_append, hcounted]

/-- A trailer with room for it is one that can be taken off. -/
theorem withTrailer (h : Frame s options t) {data : Bytes} (hdata : data.length = wordSize)
    (hroom : t.store.sink.reserve data.length = .ok ()) :
    Frame s options { t with store := ⟨t.store.sink.extend data, t.store.origin, true⟩ } := by
  have hextended := h.extend hroom
  refine ⟨h.options, h.origin, hextended.before, hextended.length, fun _ => ?_,
    hextended.counted⟩
  have hlength := h.length
  rw [Sink.length_extend]
  omega

/-- **Taking a trailer off** does not reach what was there before. -/
theorem dropTrailer (h : Frame s options t) :
    Frame s options { t with store := t.store.dropTrailer } := by
  by_cases hframed : t.store.framed
  · have hlong := h.framed hframed
    have hback : t.store.sink.length - wordSize ≤ t.store.sink.length := Nat.sub_le _ _
    rw [dropTrailer_of_framed hframed]
    refine ⟨h.options, h.origin, ?_, ?_, nofun, fun hs => ?_⟩
    · rw [Sink.committed_resize hback, List.take_take, Nat.min_eq_left (by omega)]
      exact h.before
    · rw [Sink.length_resize]
      omega
    · rw [Sink.committed_resize hback, Sink.length_resize,
        List.length_take_of_le (by rw [h.counted hs]; exact hback)]
  · rw [dropTrailer_of_not_framed hframed]
    exact h

end Frame

theorem keeps_put (data : Bytes) : (put data).Keeps (Frame s options) := by
  intro t ht
  rcases put_cases data t with ⟨e, -, hstate⟩ | ⟨hroom, -, hstate⟩
  · rw [hstate]
    exact ignoresError_frame t ht (some e)
  · rw [hstate]
    exact ht.extend hroom

theorem keeps_put_wrote (data : Bytes) (name : String) (shown : Shown) :
    (do put data; wrote name shown : Act Encoder Unit).Keeps (Frame s options) :=
  (keeps_put data).bind fun _ => Act.keeps_report _

theorem keeps_putMeasured (name : String) (data : Bytes) :
    (putMeasured name data).Keeps (Frame s options) := by
  refine Act.keeps_check.bind fun _ => Act.Keeps.bind ?_ fun n =>
    (keeps_put_wrote _ name (.u32 n)).bind fun _ => keeps_put data
  cases lengthField name data.length with
  | ok n => exact Act.keeps_pure n
  | error e => exact Act.keeps_fail ignoresError_frame e

theorem keeps_putTerminated (name : String) (data : Bytes) :
    (putTerminated name data).Keeps (Frame s options) := by
  refine Act.keeps_check.bind fun _ => ?_
  by_cases h : data.contains 0
  · rw [if_pos h]
    exact Act.keeps_fail ignoresError_frame _
  · rw [if_neg h]
    exact keeps_put _

theorem keeps_write (kind : Kind) (name : String) (v : kind.Value) :
    (write kind name v).Keeps (Frame s options) := by
  cases kind with
  | u32 | u16 | u8 | bool | fixed => exact keeps_put_wrote _ name _
  | block flags =>
    simp only [write]
    by_cases h : meets flags BlockFlags.terminated
    · rw [if_pos h]
      exact (keeps_putTerminated name _).bind fun _ => Act.keeps_report _
    · rw [if_neg h]
      exact (keeps_putMeasured name _).bind fun _ => Act.keeps_report _
  | text => exact (keeps_putMeasured name _).bind fun _ => Act.keeps_report _

theorem keeps_putTrailer : putTrailer.Keeps (Frame s options) := by
  intro t ht
  rcases putTrailer_cases t with ⟨e, -, hstate⟩ | ⟨hroom, hstate⟩
  · rw [hstate]
    exact ignoresError_frame t ht (some e)
  · rw [hstate]
    exact ht.withTrailer (length_bigEndian _ _) (by rw [length_bigEndian]; exact hroom)

theorem keeps_finish : finish.Keeps (Frame s options) :=
  Act.Keeps.bind (.of_still fun _ => rfl) fun t => by
    by_cases h : t.error.isSome || !t.has Options.checksum
    · rw [if_pos h]
      exact Act.keeps_pure ()
    · rw [if_neg h]
      exact keeps_putTrailer

/-- **Every act of the encoder keeps the frame.** -/
theorem keeps_frame : Codec.Keeps (Frame s options) where
  ignores := ignoresError_frame
  visit kind name v := (keeps_write kind name v).bind fun _ => Act.keeps_pure v
  close := Act.keeps_pure ()
  openRun _ ht := ht.dropTrailer
  closeRun := keeps_finish
  rewind _ ht := ht

/-! ### What the frame is good for -/

namespace Frame

/-- The bytes that a checksum is taken of are there to be looked at. -/
theorem slice_body (h : Frame s options t) :
    t.store.sink.slice t.store.origin (t.store.sink.length - t.store.origin) =
      .ok t.store.body := by
  have hlength := h.length
  have horigin := h.origin
  rw [Sink.slice, if_pos (by omega), body]
  cases t.store.sink with
  | fixed storage n =>
    show Except.ok ((storage.drop t.store.origin).take (n - t.store.origin)) =
      .ok ((storage.take n).drop t.store.origin)
    rw [List.drop_take]
  | growable bs limit =>
    show Except.ok ((bs.drop t.store.origin).take (bs.length - t.store.origin)) =
      .ok (bs.drop t.store.origin)
    rw [← List.length_drop, List.take_length]

/-- The trailer that is to be taken off is taken off by moving the end to where it may be. -/
theorem setLength_dropTrailer (h : Frame s options t) (hs : s.committed.length = s.length)
    (hframed : t.store.framed) :
    wordSize ≤ t.store.sink.length ∧
      t.store.sink.setLength (t.store.sink.length - wordSize) = .ok t.store.dropTrailer.sink := by
  have hlong := h.framed hframed
  have hcounted := h.counted hs
  refine ⟨by omega, ?_⟩
  rw [dropTrailer_of_framed hframed]
  cases hsink : t.store.sink with
  | fixed storage n =>
    have hn : n ≤ storage.length := by
      rw [hsink] at hcounted
      have hle := List.length_take_le' n storage
      rw [show (storage.take n).length = n from hcounted] at hle
      exact hle
    exact if_pos (Nat.le_trans (Nat.sub_le _ _) hn)
  | growable bs limit => exact if_pos (.inl (Nat.sub_le _ _))

/-- **A run that succeeds** under a checksum ends in the checksum of all that is behind the old end,
whatever that is. -/
theorem run_succeeded (h : Frame s options t) (hc : meets options Options.checksum) {r : Record}
    (hr : (run r t).result = .ok ()) :
    ∃ body, (run r t).state.store.sink.committed.drop s.length =
      body ++ bigEndian 4 (crc32 body).toNat := by
  obtain ⟨-, -, -, hclosed, -, hstate⟩ := RecordCodec.run_succeeded (fun _ => finish_of_error) hr
  have hbody := Record.visit_keeps keeps_frame r _ (keeps_frame.openRun t h)
  generalize (r.visit ((Codec.openRun : Act Encoder Unit) t).state).state = u
    at hclosed hstate hbody
  have hclean : u.error = none :=
    Classical.byContradiction fun hstored => finish_of_error hstored hclosed
  have hclose : (Codec.closeRun : Act Encoder Unit) u = putTrailer u :=
    finish_of_meets hclean (by rw [hbody.options]; exact hc)
  rw [hclose] at hclosed hstate
  rcases putTrailer_cases u with ⟨e, -, hfailed⟩ | ⟨hroom, hwritten⟩
  · rw [hfailed] at hclosed
    cases hclosed
  · refine ⟨u.store.body, ?_⟩
    have hcounted := Sink.length_committed_of_room hroom (by decide)
    have hlength := hbody.length
    rw [hstate, hwritten]
    show (u.store.sink.extend _).committed.drop s.length = _
    rw [Sink.committed_extend (by rw [length_bigEndian]; exact hroom),
      List.drop_append_of_le_length (by omega), body, hbody.origin]

end Frame

/-- **The frame of an encoder**, for every sink, all options, and whatever is done with the encoder.
At every moment what the sink held before is there, and nothing that the encoder does next can reach
it; every history leads to such moments; and after every run that succeeds under a checksum, the
bytes of the encoder end in their checksum. -/
theorem frame_of_history (context : Context) (options : Mask) (s : Sink) :
    (∀ t, Codec.Moment (fun _ => True) (start context options s) t → Frame s options t ∧
      t.store.sink.slice t.store.origin (t.store.sink.length - t.store.origin) =
        .ok t.store.body ∧
      (s.committed.length = s.length → t.store.framed → wordSize ≤ t.store.sink.length ∧
        t.store.sink.setLength (t.store.sink.length - wordSize) =
          .ok t.store.dropTrailer.sink)) ∧
    ∀ steps, Codec.Moment (fun _ => True) (start context options s)
        (performAll steps (start context options s)).2.1 ∧
      (meets options Options.checksum → ∀ r,
        let after := run r (performAll steps (start context options s)).2.1
        after.result = .ok () → ∃ body, after.state.store.sink.committed.drop s.length =
          body ++ bigEndian 4 (crc32 body).toNat) := by
  have hframe : ∀ t, Codec.Moment (fun _ => True) (start context options s) t →
      Frame s options t := fun t ht => ht.invariant keeps_frame (frame_start context options s)
  have hmoment : ∀ steps, Codec.Moment (fun _ => True) (start context options s)
      (performAll steps (start context options s)).2.1 :=
    Codec.Moment.of_history fun _ => trivial
  refine ⟨fun t ht => ⟨hframe t ht, (hframe t ht).slice_body, ?_⟩, fun steps =>
    ⟨hmoment steps, ?_⟩⟩
  · exact fun hs => (hframe t ht).setLength_dropTrailer hs
  · exact fun hc r hr => (hframe _ (hmoment steps)).run_succeeded hc hr

/-- A run that fails with a byte written, its error taken away, and a run that succeeds. -/
theorem frame_of_history_failed_run :
    let failed := Record.strict [.leaf "a" .u8 1, .failing (.outOfMemory 0)]
    let before := performAll [.run failed, .takeError]
      (start .network Options.checksum (.growable [9] (some 12)))
    let after := run (.strict [.leaf "b" .u8 2]) before.2.1
    after.result = .ok () ∧ ∃ body, after.state.store.sink.committed.drop 1 =
      body ++ bigEndian 4 (crc32 body).toNat :=
  ⟨rfl, ((frame_of_history .network Options.checksum (.growable [9] (some 12))).2 _).2 rfl _ rfl⟩

end Encoder

end RecordCodec
