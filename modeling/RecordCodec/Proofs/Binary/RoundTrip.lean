import Mathlib.Data.List.Forall2
import RecordCodec.Proofs.Binary.Decoding
import RecordCodec.Proofs.Binary.Framing
import RecordCodec.Proofs.Walk

/-!
# The binary round trip

Records are encoded one after another in one traversal, and decoded one after another in another.
The second gives back what went into the first, leaves what follows in its input, and can do the
same once more when it is sent back to the start.

A decoder checks a trailer in its first run only, so its runs are not all alike. What they share is
the state that each of them reads from once it has begun (`Decoder.Awaits`), and from the second run
on that is the state that it found (`Decoder.Settled`).

## Main definitions

* `Record.isRecoverable` — the record can be read back from its form.
* `Decoder.Awaits` — the state of a decoder between runs.
* `Decoder.opened` — a decoder that has the trailer out of the way.

## Main results

* `Decoder.run_record` — a run fills its record with the values of the one that was written.
* `Decoder.runs` — runs in a row do.
* `Decoder.run_sealed` — a decoder that was just started, on the bytes of one record.
* `Decoder.runs_committed` — what an encoder wrote is read back, twice.
-/

namespace RecordCodec

/-- The record has a binary form, and can be read back from it: the items of its sequences have the
form of the blank item, and none of them is so slight that its count would look like a lie. -/
def Record.isRecoverable (r : Record) : Bool :=
  r.isPlain && r.isEncodable && r.everySequence (substantial Stop.layout)

theorem Record.isRecoverable_iff {r : Record} :
    r.isRecoverable ↔
      r.isPlain ∧ r.isEncodable ∧ r.everySequence (substantial Stop.layout) := by
  rw [isRecoverable, Bool.and_eq_true, Bool.and_eq_true, and_assoc]

namespace Decoder

/-! ### One run -/

/-- A run that is begun now reads from `o`, or from further on in its input, and has these bytes
ahead. -/
structure Awaits (o : Traversal Decoder) (bs : Bytes) (t : Traversal Decoder) : Prop where
  clean : t.error = none
  opens : ∃ opened log, prepare t = ⟨.ok (), opened, log⟩ ∧ Reading o bs opened

/-- The decoder is in order, and its next run will not look for a trailer. -/
structure Settled (t : Traversal Decoder) : Prop where
  clean : t.error = none
  decodes : t.direction = .decode
  settled : t.store.verified || !t.has Options.checksum

variable {o t : Traversal Decoder} {rest : Bytes}

/-- Reading goes on where it is. -/
theorem Settled.awaits {bs : Bytes} (ho : Settled o) (h : Reading o bs t) : Awaits o bs t := by
  have hopens : prepare t = ⟨.ok (), t, []⟩ := by
    obtain ⟨n, rfl, -⟩ := h
    exact prepare_of_settled ho.settled
  refine ⟨?_, t, [], hopens, h⟩
  obtain ⟨n, rfl, -⟩ := h
  exact ho.clean

theorem visit_record {r s : Record} (ho : Settled o) (hr : r.isRecoverable) (hs : r.alike s)
    (ht : Reading o (r.layout ++ rest) t) :
    ∃ t', s.visit t = ⟨.ok (), r.deliver s, t', r.stops.flatMap (Stop.events .read)⟩ ∧
      Reading o rest t' := by
  obtain ⟨hplain, hencodable, hsub⟩ := Record.isRecoverable_iff.mp hr
  obtain ⟨-, hleaves, hfew⟩ := Record.isSerial_iff.mp hencodable
  rw [r.layout_eq_flatMap] at ht
  exact (recovers ho.clean ho.decodes).visit_record hplain hs hleaves hfew hsub rest t ht

/-- **A run** fills its record with the values of the one that was written. -/
theorem run_record {r s : Record} (ho : Settled o) (hr : r.isRecoverable) (hs : r.alike s)
    (ht : Awaits o (r.layout ++ rest) t) :
    ∃ t' log, run s t = ⟨.ok (), r.deliver s, t', log⟩ ∧ Reading o rest t' := by
  obtain ⟨opened, log, hopen, hopened⟩ := ht.opens
  obtain ⟨t', hvisit, ht'⟩ := visit_record ho hr hs hopened
  exact ⟨t', _, run_of_visit ht.clean hopen hvisit rfl (ho.awaits ht').clean, ht'⟩

/-! ### Runs in a row -/

/-- What runs answer that fill the second records with the values of the first. -/
def deliveries (rs ss : List Record) : List Reply :=
  List.zipWith (fun r s => .ran (.ok ()) (r.deliver s)) rs ss

/-- **Runs in a row**, one at least, leave what follows the forms of their records. -/
theorem runs {rs ss : List Record} (ho : Settled o) (hsome : rs ≠ [])
    (hrs : ∀ r ∈ rs, r.isRecoverable) (hss : List.Forall₂ (fun r s => r.alike s) rs ss)
    (ht : Awaits o (rs.flatMap Record.layout ++ rest) t) :
    ∃ t' log, performAll (ss.map .run) t = (deliveries rs ss, t', log) ∧ Reading o rest t' := by
  induction hss generalizing t with
  | nil => exact absurd rfl hsome
  | @cons r s rs ss hs hss ih =>
    rw [List.flatMap_cons, List.append_assoc] at ht
    obtain ⟨u, log, hrun, hu⟩ := run_record ho (hrs r List.mem_cons_self) hs ht
    by_cases hlast : rs = []
    · subst hlast
      cases hss
      exact ⟨u, log ++ [], performAll_run_cons hrun rfl, hu⟩
    · obtain ⟨t', log', hruns, ht'⟩ :=
        ih hlast (fun r' hr' => hrs r' (List.mem_cons_of_mem r hr')) (ho.awaits hu)
      exact ⟨t', log ++ log', performAll_run_cons hrun hruns, ht'⟩

/-! ### The input -/

/-- The decoder of sealed bytes, and others behind them, with the trailer out of the way. -/
def opened (context : Context) (options : Mask) (body rest : Bytes) : Traversal Decoder :=
  .start .decode context options
    ⟨⟨sealed options body ++ rest, 0, (body ++ rest).length⟩, meets options Options.checksum⟩

section

variable (context : Context) {options : Mask} (body : Bytes)

theorem settled_opened : Settled (opened context options body rest) :=
  ⟨rfl, rfl, Bool.or_not_self _⟩

/-- A decoder opens sealed bytes. Nothing may follow where they end in a trailer. -/
theorem prepare_start (hrest : meets options Options.checksum → rest = []) :
    prepare (start context options (sealed options body ++ rest)) =
      ⟨.ok (), opened context options body rest, trailerEvents .read options body⟩ := by
  by_cases hc : meets options Options.checksum
  · have hbuffer : (start context options (sealed options body ++ rest)).store.cursor.buffer =
        body ++ bigEndian 4 (crc32 body).toNat := by
      rw [hrest hc, List.append_nil, sealed, trailer_of_meets hc]
      rfl
    rw [prepare_start_eq_verify context _ hc, verify_eq (length_bigEndian 4 _) hbuffer,
      ofBigEndian_word, if_pos rfl, trailerEvents, if_pos hc, opened, hrest hc, List.append_nil,
      List.append_nil, hc]
    rfl
  · have hno : meets options Options.checksum = false := eq_false_of_ne_true hc
    have hsealed : sealed options body = body := by
      rw [sealed, trailer_of_not_meets hc, List.append_nil]
    have hsettled : (start context options (sealed options body ++ rest)).store.verified ||
        !(start context options (sealed options body ++ rest)).has Options.checksum := by
      rw [Traversal.has, start, Traversal.start, hno]
      rfl
    rw [prepare_of_settled hsettled, trailerEvents, if_neg hc, opened, hno, hsealed]
    rfl

theorem limit_opened_le :
    (opened context options body rest).store.cursor.limit ≤
      (opened context options body rest).store.cursor.buffer.length := by
  show (body ++ rest).length ≤ (sealed options body ++ rest).length
  simp only [sealed, List.length_append]
  omega

theorem rest_opened (hrest : meets options Options.checksum → rest = []) :
    (opened context options body rest).store.cursor.rest = body ++ rest := by
  show ((sealed options body ++ rest).drop 0).take ((body ++ rest).length - 0) = body ++ rest
  rw [List.drop_zero, Nat.sub_zero]
  by_cases hc : meets options Options.checksum
  · rw [hrest hc, List.append_nil, List.append_nil, sealed, List.take_left]
  · rw [sealed, trailer_of_not_meets hc, List.append_nil, List.take_length]

theorem reading_opened (hrest : meets options Options.checksum → rest = []) :
    Reading (opened context options body rest) (body ++ rest)
      (opened context options body rest) := by
  rw [← rest_opened context body hrest]
  exact reading_self _

/-- A decoder that was just started awaits the bytes and what follows them. -/
theorem awaits_start (hrest : meets options Options.checksum → rest = []) :
    Awaits (opened context options body rest) (body ++ rest)
      (start context options (sealed options body ++ rest)) :=
  ⟨rfl, _, _, prepare_start context body hrest, reading_opened context body hrest⟩

end

section

variable {context : Context} {options : Mask} {body bs : Bytes}

/-- What the cursor has ahead is all that it may read. -/
theorem unread_of_reading (h : Reading (opened context options body rest) bs t) :
    t.store.cursor.unread = bs.length := by
  obtain ⟨n, rfl, hbs⟩ := h
  have hlimit : ((opened context options body rest).advance n).store.cursor.limit ≤
      ((opened context options body rest).advance n).store.cursor.buffer.length :=
    limit_opened_le context body
  rw [← hbs]
  exact (Cursor.length_rest hlimit).symm

/-- Sent back to its start, the decoder has the trailer out of the way still. -/
theorem rewind_of_reading (h : Reading (opened context options body rest) bs t) :
    { t with store := Codec.rewind t.store } = opened context options body rest := by
  obtain ⟨n, rfl, -⟩ := h
  rfl

end

/-- **The run of a decoder that was just started** on the bytes of one record, with its trace. -/
theorem run_sealed (context : Context) (options : Mask) {r s : Record} (hr : r.isRecoverable)
    (hs : r.alike s) :
    ∃ t, run s (start context options (sealed options r.layout)) =
      ⟨.ok (), r.deliver s, t,
        trailerEvents .read options r.layout ++ r.stops.flatMap (Stop.events .read)⟩ := by
  have hopen : prepare (start context options (sealed options r.layout ++ [])) =
      ⟨.ok (), opened context options r.layout [], trailerEvents .read options r.layout⟩ :=
    prepare_start context r.layout fun _ => rfl
  have hsettled : Settled (opened context options r.layout []) := settled_opened context r.layout
  obtain ⟨t, hvisit, ht⟩ :=
    visit_record hsettled hr hs (reading_opened context r.layout fun _ => rfl)
  have hrun := run_of_visit rfl hopen hvisit rfl (hsettled.awaits ht).clean
  rw [List.append_nil, List.append_nil] at hrun
  exact ⟨t, hrun⟩

/-! ### There and back -/

/-- **The round trip.** Records that are encoded in a row, into a sink that only memory limits, are
decoded in a row: every run succeeds, each record gets the values of the one that was written, and
what follows in the input is left. Sent back to the start, the decoder does the same again. -/
theorem runs_committed (context context' : Context) (options : Mask)
    (rs ss again : List Record) (rest : Bytes) (hrs : ∀ r ∈ rs, r.isRecoverable)
    (hss : List.Forall₂ (fun r s => r.alike s) rs ss)
    (hagain : List.Forall₂ (fun r s => r.alike s) rs again)
    (hroom : (sealed options (rs.flatMap Record.layout)).length ≤ maxLength)
    (hrest : meets options Options.checksum → rest = []) :
    let written := performAll (rs.map .run) (Encoder.start context options (Sink.empty none))
    let read := performAll (ss.map .run)
      (start context' options (written.2.1.store.sink.committed ++ rest))
    let reread := performAll (.rewind :: again.map .run) read.2.1
    written.1 = rs.map (.ran (.ok ())) ∧
      (read.1 = deliveries rs ss ∧ read.2.1.store.cursor.unread = rest.length) ∧
      reread.1 = .rewound :: deliveries rs again ∧
        reread.2.1.store.cursor.unread = rest.length := by
  by_cases hsome : rs = []
  · subst hsome
    cases hss
    cases hagain
    exact ⟨rfl, ⟨rfl, rfl⟩, rfl, rfl⟩
  · rw [← Sink.reserve_empty_iff, length_sealed] at hroom
    have hwrote : Encoder.Wrote (Sink.empty none).committed []
        ((rs.flatMap Record.layout).length + 0)
        (Encoder.start context options (Sink.empty none)) := Encoder.wrote_start hroom
    have hencodable : ∀ r ∈ rs, r.isEncodable := by
      intro r hr
      obtain ⟨-, hencodable, -⟩ := Record.isRecoverable_iff.mp (hrs r hr)
      exact hencodable
    obtain ⟨w, log, hwritten, hoptions, hw⟩ := hwrote.runs hsome hencodable
    have hcommitted : w.store.sink.committed = sealed options (rs.flatMap Record.layout) := by
      have hsealed := hw.committed
      rwa [hoptions] at hsealed
    have hsettled : Settled (opened context' options (rs.flatMap Record.layout) rest) :=
      settled_opened context' _
    obtain ⟨u, log', hread, hu⟩ := runs hsettled hsome hrs hss (awaits_start context' _ hrest)
    have hback := rewind_of_reading hu
    obtain ⟨v, log'', hreread, hv⟩ := runs hsettled hsome hrs hagain
      (hsettled.awaits (reading_opened context' _ hrest))
    simp only [hwritten, hcommitted, hread, performAll, Step.perform, hback, hreread]
    exact ⟨trivial, ⟨trivial, unread_of_reading hu⟩, trivial, unread_of_reading hv⟩

/-- Into a blank record, and then into one that is full already. -/
theorem runs_committed_specimen :
    let rs := [Record.specimen]
    let ss := [Record.specimen.blank]
    let rest : Bytes := []
    let written := performAll (rs.map .run)
      (Encoder.start .network Options.checksum (Sink.empty none))
    let read := performAll (ss.map .run)
      (start .storage Options.checksum (written.2.1.store.sink.committed ++ rest))
    let reread := performAll (.rewind :: rs.map .run) read.2.1
    written.1 = rs.map (.ran (.ok ())) ∧
      (read.1 = deliveries rs ss ∧ read.2.1.store.cursor.unread = rest.length) ∧
      reread.1 = .rewound :: deliveries rs rs ∧
        reread.2.1.store.cursor.unread = rest.length :=
  runs_committed .network .storage Options.checksum [Record.specimen] [Record.specimen.blank]
    [Record.specimen] [] (by decide) (.cons (by decide) .nil) (.cons (by decide) .nil)
    (by decide) fun _ => rfl

end Decoder

end RecordCodec
