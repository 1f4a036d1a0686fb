import RecordCodec.Proofs.Binary.Encoding

/-!
# Runs of the binary encoder

Each run takes the trailer of the one before off the sink, writes the form of its record, and ends
with a new trailer for all that the encoder wrote.

Between two runs the sink may or may not end in a trailer. What the encoder really holds is the sink
that a next run would start from, `Encoder.dropTrailer`, and `Encoder.Holds` is about that one. So
there is one kind of run only, and the first is like all others.

## Main definitions

* `Encoder.withTrailer` — an encoder at the end of a run.
* `Encoder.Holds` — the bytes and the room that a next run starts from.
* `Encoder.Wrote`, `Encoder.Ended` — the state of an encoder between runs, and after one.

## Main results

* `Encoder.run_record` — a run writes the form of its record and a new trailer.
* `Encoder.committed_runs` — the bytes of runs in a row, for any sink that has room for them.
-/

namespace RecordCodec

namespace Encoder

/-! ### Trailers -/

/-- The encoder with its bytes sealed. -/
def withTrailer (options : Mask) (e : Encoder) : Encoder :=
  { e with
    sink := e.sink.extend (trailer options e.body)
    framed := e.framed || meets options Options.checksum }

/-- Where an error is stored, a run ends as it is. -/
theorem finish_of_stored {t : Traversal Encoder} (h : t.error ≠ none) :
    finish t = ⟨.ok (), t, []⟩ := by
  have hsome : t.error.isSome := Option.isSome_iff_ne_none.mpr h
  simp only [finish, Act.bind_apply, Act.state, hsome, Bool.true_or, if_true, Act.pure_apply,
    List.append_nil]

/-- Where the options ask for no trailer, a run ends as it is. -/
theorem finish_of_not_meets {t : Traversal Encoder} (h : ¬meets t.options Options.checksum) :
    finish t = ⟨.ok (), t, []⟩ := by
  have hno : t.has Options.checksum = false := eq_false_of_ne_true h
  simp only [finish, Act.bind_apply, Act.state, hno, Bool.not_false, Bool.or_true, if_true,
    Act.pure_apply, List.append_nil]

/-- Elsewhere it ends with a trailer. -/
theorem finish_of_meets {t : Traversal Encoder} (ht : t.error = none)
    (h : meets t.options Options.checksum) : finish t = putTrailer t := by
  have hwant : (t.error.isSome || !t.has Options.checksum) = false := by
    rw [ht, Traversal.has, h]
    rfl
  simp only [finish, Act.bind_apply, Act.state, hwant, Bool.false_eq_true, if_false,
    List.nil_append]

theorem finish_of_room {t : Traversal Encoder} (ht : t.error = none)
    (hroom : t.store.sink.reserve (trailerLength t.options) = .ok ()) :
    finish t = ⟨.ok (), { t with store := t.store.withTrailer t.options },
      trailerEvents .written t.options t.store.body⟩ := by
  by_cases hc : meets t.options Options.checksum
  · have hseal := trailer_of_meets hc t.store.body
    rw [← length_trailer t.options t.store.body, hseal] at hroom
    have hput := writes_put (e := t.store) _ t t.store.sink ht rfl hroom
    rw [finish_of_meets ht hc]
    simp only [putTrailer, Act.bind_apply, Act.store, hput, Act.modifyStore, Act.report,
      withTrailer, hseal, hc, Bool.or_true, trailerEvents, if_true]
    rfl
  · have hseal := trailer_of_not_meets hc t.store.body
    rw [finish_of_not_meets hc]
    simp only [withTrailer, hseal, Sink.extend_nil, hc, Bool.or_false, trailerEvents]
    rfl

/-! ### Taking a trailer off -/

theorem dropTrailer_of_framed {e : Encoder} (h : e.framed) :
    e.dropTrailer =
      { e with sink := e.sink.resize (e.sink.length - wordSize), framed := false } :=
  if_pos h

theorem dropTrailer_of_not_framed {e : Encoder} (h : ¬e.framed) : e.dropTrailer = e :=
  if_neg h

theorem framed_dropTrailer (e : Encoder) : ¬e.dropTrailer.framed := by
  by_cases h : e.framed
  · rw [dropTrailer_of_framed h]
    exact Bool.false_ne_true
  · rwa [dropTrailer_of_not_framed h]

theorem origin_dropTrailer (e : Encoder) : e.dropTrailer.origin = e.origin := by
  by_cases h : e.framed
  · rw [dropTrailer_of_framed h]
  · rw [dropTrailer_of_not_framed h]

/-- Where the options ask for a trailer, it can be taken off again. -/
theorem sink_dropTrailer_withTrailer {e : Encoder} {options : Mask}
    (h : meets options Options.checksum) :
    (e.withTrailer options).dropTrailer.sink =
      (e.sink.extend (trailer options e.body)).resize e.sink.length := by
  have hframed : (e.withTrailer options).framed := by
    simp only [withTrailer, h, Bool.or_true]
  have hback : (e.withTrailer options).sink.length - wordSize = e.sink.length := by
    rw [withTrailer, Sink.length_extend, length_trailer, trailerLength, if_pos h,
      Nat.add_sub_cancel]
  rw [dropTrailer_of_framed hframed]
  exact congrArg (Sink.resize · (e.sink.extend (trailer options e.body))) hback

/-- Where they do not, there is none. -/
theorem dropTrailer_withTrailer_of_not_meets {e : Encoder} {options : Mask}
    (h : ¬meets options Options.checksum) (hframed : ¬e.framed) :
    (e.withTrailer options).dropTrailer = e := by
  have hno : meets options Options.checksum = false := eq_false_of_ne_true h
  have hwith : e.withTrailer options = e := by
    simp only [withTrailer, trailer_of_not_meets h, Sink.extend_nil, hno, Bool.or_false]
  rw [hwith, dropTrailer_of_not_framed hframed]

/-- The encoder with further bytes in its sink. -/
def extend (data : Bytes) (e : Encoder) : Encoder :=
  { e with sink := e.sink.extend data }

/-! ### What an encoder holds -/

/-- The encoder's sink held `before` when it was started, it has written `body` since then, and
there is room for `room` further bytes and a trailer behind them. -/
structure Holds (options : Mask) (before body : Bytes) (room : Nat) (e : Encoder) : Prop where
  committed : e.sink.committed = before ++ body
  fits : e.sink.reserve (room + trailerLength options) = .ok ()
  /-- Where a checksum is to be taken, its beginning is known. -/
  origin : meets options Options.checksum → e.origin = before.length
  /-- Where a trailer is to be taken off, the sink counts its bytes right. -/
  counted : meets options Options.checksum → e.sink.length = (before ++ body).length

namespace Holds

variable {options : Mask} {before body data : Bytes} {room : Nat} {e : Encoder}

theorem extend (h : Holds options before body (data.length + room) e) :
    Holds options before (body ++ data) room (e.extend data) := by
  have hroom := h.fits
  rw [Nat.add_assoc] at hroom
  refine ⟨?_, Sink.reserve_extend hroom, h.origin, ?_⟩
  · have hfits := Sink.reserve_of_le hroom (Nat.le_add_right _ _)
    rw [Encoder.extend, Sink.committed_extend hfits, h.committed, List.append_assoc]
  · intro hc
    rw [Encoder.extend, Sink.length_extend, h.counted hc]
    simp only [List.length_append, Nat.add_assoc]

/-- Where a checksum is taken, it is taken of what was written. -/
theorem body_eq (h : Holds options before body room e) (hc : meets options Options.checksum) :
    e.body = body := by
  rw [Encoder.body, h.origin hc, h.committed, List.drop_left]

theorem committed_withTrailer (h : Holds options before body room e) :
    (e.withTrailer options).sink.committed = before ++ sealed options body := by
  have hfits : e.sink.reserve (trailer options e.body).length = .ok () := by
    rw [length_trailer]
    exact Sink.reserve_of_le h.fits (Nat.le_add_left _ _)
  rw [withTrailer, Sink.committed_extend hfits, h.committed, trailer_congr h.body_eq, sealed,
    List.append_assoc]

/-- **A trailer that is taken off again** leaves the encoder as it was without one. -/
theorem dropTrailer_withTrailer (h : Holds options before body room e) (hframed : ¬e.framed) :
    Holds options before body room (e.withTrailer options).dropTrailer := by
  by_cases hc : meets options Options.checksum
  · have hcounted : e.sink.committed.length = e.sink.length := by
      rw [h.committed, h.counted hc]
    have hroom := h.fits
    rw [Nat.add_comm, ← length_trailer options e.body] at hroom
    refine ⟨?_, ?_, ?_, ?_⟩
    · rw [sink_dropTrailer_withTrailer hc, Sink.committed_resize_extend hcounted hroom]
      exact h.committed
    · rw [sink_dropTrailer_withTrailer hc, Nat.add_comm, ← length_trailer options e.body]
      exact Sink.reserve_resize_extend hcounted hroom
    · intro _
      rw [origin_dropTrailer]
      exact h.origin hc
    · intro _
      rw [sink_dropTrailer_withTrailer hc, Sink.length_resize]
      exact h.counted hc
  · rwa [dropTrailer_withTrailer_of_not_meets hc hframed]

end Holds

/-! ### Runs -/

/-- **A run.** The old trailer goes, the form of the record comes, and a new trailer. -/
theorem run_record {r : Record} (h : r.isEncodable) {t : Traversal Encoder}
    (ht : t.error = none) (hdir : t.direction ≠ .decode)
    (hroom : t.store.dropTrailer.sink.reserve
      (r.layout.length + trailerLength t.options) = .ok ()) :
    run r t = ⟨.ok (), r,
      { t with store := (t.store.dropTrailer.extend r.layout).withTrailer t.options },
      r.stops.flatMap (Stop.events .written) ++
        trailerEvents .written t.options (t.store.dropTrailer.extend r.layout).body⟩ := by
  have hopen : (Codec.openRun : Act Encoder Unit) t =
      ⟨.ok (), { t with store := t.store.dropTrailer }, []⟩ := rfl
  have hvisit := visit_record h (t := { t with store := t.store.dropTrailer }) ht hdir
    (Sink.reserve_of_le hroom (Nat.le_add_right _ _))
  have hclose := finish_of_room
    (t := { t with store := t.store.dropTrailer.extend r.layout }) ht (Sink.reserve_extend hroom)
  exact run_of_visit ht hopen hvisit hclose ht

/-- Between runs: the encoder is in order, and this is what its next run starts from. -/
structure Wrote (before body : Bytes) (room : Nat) (t : Traversal Encoder) : Prop where
  clean : t.error = none
  encodes : t.direction ≠ .decode
  holds : t.store.dropTrailer.Holds t.options before body room

/-- After a run: moreover, the bytes are sealed. -/
structure Ended (before body : Bytes) (room : Nat) (t : Traversal Encoder) : Prop
    extends Wrote before body room t where
  committed : t.store.sink.committed = before ++ sealed t.options body

/-- An encoder that was just started has written nothing. -/
theorem wrote_start {context : Context} {options : Mask} {s : Sink} {room : Nat}
    (h : s.reserve (room + trailerLength options) = .ok ()) :
    Wrote s.committed [] room (start context options s) := by
  have hexact : meets options Options.checksum → s.length = s.committed.length := by
    intro hc
    have hpos : trailerLength options = wordSize := if_pos hc
    exact (Sink.length_committed_of_room h (by rw [hpos, wordSize]; omega)).symm
  have hencodes : (start context options s).direction ≠ .decode := by
    show Direction.encode ≠ .decode
    decide
  refine ⟨rfl, hencodes, (List.append_nil _).symm, h, hexact, ?_⟩
  intro hc
  rw [List.append_nil]
  exact hexact hc

variable {before body : Bytes} {room : Nat} {rs : List Record} {t : Traversal Encoder}

/-- **A run adds the form of its record**, and seals all that the encoder wrote. -/
theorem Wrote.run {r : Record} (hr : r.isEncodable)
    (ht : Wrote before body (r.layout.length + room) t) :
    ∃ t' log, RecordCodec.run r t = ⟨.ok (), r, t', log⟩ ∧ t'.options = t.options ∧
      Ended before (body ++ r.layout) room t' := by
  have hroom : t.store.dropTrailer.sink.reserve
      (r.layout.length + trailerLength t.options) = .ok () :=
    Sink.reserve_of_le ht.holds.fits (by omega)
  have hrun := run_record hr ht.clean ht.encodes hroom
  have hwritten := ht.holds.extend
  refine ⟨_, _, hrun, rfl, ⟨ht.clean, ht.encodes, ?_⟩, hwritten.committed_withTrailer⟩
  exact hwritten.dropTrailer_withTrailer (framed_dropTrailer t.store)

/-- Runs in a row, one at least. -/
theorem Wrote.runs (hsome : rs ≠ []) (hrs : ∀ r ∈ rs, r.isEncodable)
    (ht : Wrote before body ((rs.flatMap Record.layout).length + room) t) :
    ∃ t' log, performAll (rs.map .run) t = (rs.map (.ran (.ok ())), t', log) ∧
      t'.options = t.options ∧ Ended before (body ++ rs.flatMap Record.layout) room t' := by
  induction rs generalizing body t with
  | nil => exact absurd rfl hsome
  | cons r rs ih =>
    rw [List.flatMap_cons, List.length_append, Nat.add_assoc] at ht
    obtain ⟨s, log, hrun, hoptions, hs⟩ := ht.run (hrs r List.mem_cons_self)
    rw [List.flatMap_cons, ← List.append_assoc]
    by_cases hlast : rs = []
    · subst hlast
      rw [List.flatMap_nil, List.length_nil, Nat.zero_add] at hs
      rw [List.flatMap_nil, List.append_nil]
      exact ⟨s, log ++ [], performAll_run_cons hrun rfl, hoptions, hs⟩
    · obtain ⟨t', log', hruns, hoptions', ht'⟩ :=
        ih hlast (fun r' hr' => hrs r' (List.mem_cons_of_mem r hr')) hs.toWrote
      exact ⟨t', log ++ log', performAll_run_cons hrun hruns, hoptions'.trans hoptions, ht'⟩

/-- **The encoder refines the layout.** Given a sink of either kind that has room, runs in a row all
succeed, and put behind what the sink held the forms of their records, and one trailer where the
options ask for one. The trailer is for these forms alone. -/
theorem committed_runs (context : Context) (options : Mask) (s : Sink) (rs : List Record)
    (hsome : rs ≠ []) (hrs : ∀ r ∈ rs, r.isEncodable)
    (hroom : s.reserve (sealed options (rs.flatMap Record.layout)).length = .ok ()) :
    let done := performAll (rs.map .run) (start context options s)
    done.1 = rs.map (.ran (.ok ())) ∧
      done.2.1.store.sink.committed =
        s.committed ++ sealed options (rs.flatMap Record.layout) := by
  rw [length_sealed] at hroom
  have hstart : Wrote s.committed [] ((rs.flatMap Record.layout).length + 0)
      (start context options s) := wrote_start hroom
  obtain ⟨t', log, hruns, hoptions, ht'⟩ := hstart.runs hsome hrs
  have hcommitted := ht'.committed
  rw [hoptions] at hcommitted
  rw [hruns]
  exact ⟨rfl, hcommitted⟩

/-- Two runs behind a byte that was there before them. -/
theorem committed_runs_specimen :
    let rs := [Record.specimen, Record.specimen]
    let done := performAll (rs.map .run)
      (start .network Options.checksum (.growable [9] (some 64)))
    done.1 = rs.map (.ran (.ok ())) ∧
      done.2.1.store.sink.committed =
        [9] ++ sealed Options.checksum (rs.flatMap Record.layout) :=
  committed_runs .network Options.checksum (.growable [9] (some 64))
    [Record.specimen, Record.specimen] (by decide) (by decide) rfl

end Encoder

end RecordCodec
