import RecordCodec.Binary.Summer
import RecordCodec.Proofs.Binary.Size

/-!
# The checksum without the bytes

A summer is told of the same leaves as an encoder, and takes their forms into its register piece by
piece. An encoder with a trailer takes the checksum of the whole body at the end of each run. The
two agree because a register does not know how its bytes were cut.

## Main definitions

* `Summer.feedEach` — takes byte strings in, one after another.

## Main results

* `Summer.runs` — runs in a row take in the forms of their records.
* `Summer.sum_is_trailer` — the sum is the trailer.
-/

namespace RecordCodec

namespace Summer

/-! ### Pieces -/

instance : TakesBytes Summer where
  take data s := ⟨Crc32.feedAll s.register data⟩
  take_nil _ := rfl
  take_append data more s := congrArg Summer.mk (Crc32.feedAll_append s.register data more)

/-- Takes byte strings in, one after another. -/
def feedEach : List Bytes → Act Summer Unit
  | [] => pure ()
  | piece :: pieces => do
    feed piece
    feedEach pieces

theorem takes_feed (data : Bytes) : (feed data).Takes data :=
  Act.takes_modify fun _ => rfl

/-- **It does not matter how the bytes are cut.** -/
theorem takes_feedEach (pieces : List Bytes) : (feedEach pieces).Takes pieces.flatten := by
  induction pieces with
  | nil => exact Act.takes_pure
  | cons piece pieces ih => exact (takes_feed piece).seq ih

/-! ### Leaves and records -/

theorem takes_feedMeasured (name : String) {data : Bytes} (h : data.length < UInt32.size) :
    (feedMeasured name data).Takes (bigEndian 4 data.length ++ data) := by
  have hfield : lengthField name data.length = .ok (UInt32.ofNat data.length) :=
    lengthField_eq_ok_iff.mpr ⟨h, rfl⟩
  have hlen : (UInt32.ofNat data.length).toNat = data.length := UInt32.toNat_ofNat_of_lt' h
  rw [← congrArg (bigEndian 4) hlen]
  exact Act.takes_check.seq (.of_require hfield ((takes_feed _).seq (takes_feed data)))

/-- **A leaf is taken in** as its form. -/
theorem takes_leaf {l : Leaf} (h : l.isMeasurable) :
    (absorb l.kind l.name l.value).Takes l.layout := by
  obtain ⟨name, kind, v⟩ := l
  cases kind with
  | u32 => exact takes_feed (bigEndian 4 v.toNat)
  | u16 => exact takes_feed (bigEndian 2 v.toNat)
  | u8 =>
    have hlayout : (⟨name, .u8, v⟩ : Leaf).layout = [v] := bigEndian_byte v
    rw [hlayout]
    exact takes_feed [v]
  | bool => exact takes_feed [if v then 1 else 0]
  | fixed => exact takes_feed v
  | block flags =>
    simp only [Leaf.isMeasurable, Kind.isMeasurable] at h
    simp only [absorb, Leaf.layout, Kind.layout]
    by_cases hterm : meets flags BlockFlags.terminated
    · simp only [if_pos hterm]
      exact (takes_feed v.toBytes).seq ((takes_feed [0]).seq (Act.takes_report _))
    · rw [eq_false_of_ne_true hterm, Bool.false_or, decide_eq_true_iff] at h
      simp only [if_neg hterm]
      have hdata := (takes_feedMeasured name h).seq (Act.takes_report (.summed name v.length))
      rw [List.append_nil] at hdata
      exact hdata
  | text =>
    simp only [Leaf.isMeasurable, Kind.isMeasurable, decide_eq_true_iff] at h
    exact takes_feedMeasured name h

theorem faithful_feed (data : Bytes) : (feed data).Faithful :=
  Act.faithful_check.bind fun _ => Act.faithful_modifyStore _

theorem faithful_feedMeasured (name : String) (data : Bytes) : (feedMeasured name data).Faithful :=
  Act.faithful_check.bind fun _ => (Act.faithful_require _).bind fun _ =>
    (faithful_feed _).bind fun _ => faithful_feed data

theorem faithful_absorb (kind : Kind) (name : String) (v : kind.Value) :
    (absorb kind name v).Faithful := by
  cases kind with
  | u32 | u16 | u8 | bool | fixed => exact faithful_feed _
  | block flags =>
    by_cases h : meets flags BlockFlags.terminated
    · simp only [absorb, if_pos h]
      exact (faithful_feed _).bind fun _ => (faithful_feed _).bind fun _ => Act.faithful_report _
    · simp only [absorb, if_neg h]
      exact (faithful_feedMeasured name _).bind fun _ => Act.faithful_report _
  | text => exact faithful_feedMeasured name _

theorem visit_eq_absorb (kind : Kind) (name : String) (v : kind.Value) :
    Codec.visit (σ := Summer) kind name v = absorb kind name v >>= fun _ => pure v := rfl

instance : Codec.Observing Summer :=
  .of_acts visit_eq_absorb faithful_absorb (Act.faithful_pure ())

instance : Measures Summer :=
  .of_acts visit_eq_absorb (fun _ => takes_leaf) Act.takes_pure

/-! ### Runs -/

variable {t : Traversal Summer}

theorem run_record {r : Record} (hr : r.isData) (hfit : LeavesFit Leaf.isMeasurable r.stops)
    (ht : t.error = none) (hdir : t.direction ≠ .decode) :
    ∃ log, run r t = ⟨.ok (), r, { t with store := TakesBytes.take r.layout t.store }, log⟩ := by
  obtain ⟨log, hvisit⟩ := Measures.visit_record hr hfit ht hdir
  exact ⟨_, run_of_visit ht rfl hvisit rfl ht⟩

/-- **Runs in a row** take in the forms of their records. -/
theorem runs {rs : List Record} (hrs : ∀ r ∈ rs, r.isEncodable) (ht : t.error = none)
    (hdir : t.direction ≠ .decode) :
    ∃ log, performAll (rs.map .run) t = (rs.map (.ran (.ok ())),
      { t with store := TakesBytes.take (rs.flatMap Record.layout) t.store }, log) := by
  induction rs generalizing t with
  | nil => exact ⟨[], rfl⟩
  | cons r rs ih =>
    obtain ⟨hdata, hfit, -⟩ := Record.isSerial_iff.mp (hrs r List.mem_cons_self)
    obtain ⟨log, hrun⟩ := run_record hdata hfit.measurable ht hdir
    obtain ⟨log', hruns⟩ := ih (fun r' hr' => hrs r' (List.mem_cons_of_mem r hr'))
      (t := { t with store := TakesBytes.take r.layout t.store }) ht hdir
    refine ⟨log ++ log', ?_⟩
    rw [List.flatMap_cons, TakesBytes.take_append]
    exact performAll_run_cons hrun hruns

/-! ### The trailer -/

/-- A fresh summer that has taken in a body has its checksum. -/
theorem sum_take (body : Bytes) : (TakesBytes.take body (⟨Crc32.start⟩ : Summer)).sum = crc32 body :=
  rfl

/-- What an encoder with room has written after runs in a row, one at least. -/
theorem written_runs (context : Context) (options : Mask) {s : Sink} {rs : List Record}
    (hsome : rs ≠ []) (hrs : ∀ r ∈ rs, r.isEncodable)
    (hroom : s.reserve ((rs.flatMap Record.layout).length + trailerLength options) = .ok ()) :
    ∃ t log, performAll (rs.map .run) (Encoder.start context options s) =
        (rs.map (.ran (.ok ())), t, log) ∧
      t.store.sink.committed = s.committed ++ sealed options (rs.flatMap Record.layout) := by
  have hstart : Encoder.Wrote s.committed [] ((rs.flatMap Record.layout).length + 0)
      (Encoder.start context options s) := Encoder.wrote_start hroom
  obtain ⟨t, log, hruns, hoptions, ht⟩ := hstart.runs hsome hrs
  have hcommitted := ht.committed
  rw [hoptions] at hcommitted
  exact ⟨t, log, hruns, hcommitted⟩

/-- **The sum is the trailer.** A summer and two encoders, one without and one with a trailer, go
through the same runs. Then the sum is the checksum of what the first encoder has written, however
that is cut, and it is what the second one has written behind it. So the checksum of a record is the
trailer of its encoding, whenever there is one. -/
theorem sum_is_trailer (context context' : Context) (bare framed : Mask)
    (hbare : ¬meets bare Options.checksum) (hframed : meets framed Options.checksum) :
    (∀ (s : Sink) (rs : List Record), rs ≠ [] → (∀ r ∈ rs, r.isEncodable) →
      s.reserve ((rs.flatMap Record.layout).length + wordSize) = .ok () →
      let summed := performAll (rs.map .run) (start context)
      let written := performAll (rs.map .run) (Encoder.start context' bare s)
      let closed := performAll (rs.map .run) (Encoder.start context' framed s)
      let sum := summed.2.1.store.sum
      summed.1 = rs.map (.ran (.ok ())) ∧ written.1 = rs.map (.ran (.ok ())) ∧
        closed.1 = rs.map (.ran (.ok ())) ∧
        ∃ body last, written.2.1.store.sink.committed = s.committed ++ body ∧
          closed.2.1.store.sink.committed = s.committed ++ body ++ last ∧
          sum = crc32 body ∧ last.length = 4 ∧ ofBigEndian last = sum.toNat ∧
          ∀ pieces : List Bytes, pieces.flatten = body →
            (feedEach pieces (start context)).state.store.sum = sum) ∧
    ∀ r : Record, r.isData → ∀ bytes : Bytes, (r.encode context' framed).result = .ok bytes →
      ∃ sum body, (r.checksum context).result = .ok sum ∧ sum = crc32 body ∧
        bytes = body ++ bigEndian 4 sum.toNat := by
  refine ⟨?_, ?_⟩
  · intro s rs hsome hrs hroom summed written closed sum
    have hlength : trailerLength framed = wordSize := if_pos hframed
    have hnone : trailerLength bare = 0 := if_neg hbare
    obtain ⟨log, hsummed⟩ := runs (t := start context) hrs rfl nofun
    obtain ⟨t, log', hwritten, hbody⟩ :=
      written_runs context' bare hsome hrs (Sink.reserve_of_le hroom (by omega))
    obtain ⟨t', log'', hclosed, hsealed⟩ :=
      written_runs context' framed hsome hrs (hlength ▸ hroom)
    have hsum : sum = crc32 (rs.flatMap Record.layout) := by
      simp only [sum, summed, hsummed]
      exact sum_take _
    rw [sealed, trailer_of_not_meets hbare, List.append_nil] at hbody
    rw [sealed, trailer_of_meets hframed, ← hsum, ← List.append_assoc] at hsealed
    simp only [summed, written, closed, hsummed, hwritten, hclosed]
    refine ⟨trivial, trivial, trivial, _, _, hbody, hsealed, hsum, length_bigEndian 4 _,
      ofBigEndian_bigEndian_four sum.toNat_lt, ?_⟩
    rintro pieces hpieces
    obtain ⟨log, hfed⟩ := takes_feedEach pieces (start context) rfl
    rw [hfed, hpieces, hsum]
    exact sum_take _
  · intro r hr bytes hbytes
    obtain ⟨hwritten, rfl⟩ := Sizer.encode_eq_ok hr hbytes
    obtain ⟨hfit, hgrown⟩ := Encoder.first_run_succeeded hr rfl hwritten
    obtain ⟨log, hsummed⟩ := run_record (t := start context) hr hfit.measurable rfl nofun
    refine ⟨crc32 r.layout, r.layout, ?_, rfl, ?_⟩
    · rw [Record.checksum, hsummed]
      rfl
    · rw [hgrown.committed, ← trailer_of_meets hframed]
      rfl

/-- Two records behind a byte that was there before them, and a record alone. -/
theorem sum_is_trailer_specimen :
    let rs := [Record.specimen, Record.specimen]
    let s := Sink.growable [9] none
    ¬meets 0 Options.checksum ∧ meets Options.checksum Options.checksum ∧
      (∀ r ∈ rs, r.isEncodable) ∧
      s.reserve ((rs.flatMap Record.layout).length + wordSize) = .ok () ∧
      (let summed := performAll (rs.map .run) (start .network)
      let written := performAll (rs.map .run) (Encoder.start .storage 0 s)
      let closed := performAll (rs.map .run) (Encoder.start .storage Options.checksum s)
      let sum := summed.2.1.store.sum
      summed.1 = rs.map (.ran (.ok ())) ∧ written.1 = rs.map (.ran (.ok ())) ∧
        closed.1 = rs.map (.ran (.ok ())) ∧
        ∃ body last, written.2.1.store.sink.committed = s.committed ++ body ∧
          closed.2.1.store.sink.committed = s.committed ++ body ++ last ∧
          sum = crc32 body ∧ last.length = 4 ∧ ofBigEndian last = sum.toNat ∧
          ∀ pieces : List Bytes, pieces.flatten = body →
            (feedEach pieces (start .network)).state.store.sum = sum) ∧
      ∃ bytes, (Record.specimen.encode .storage Options.checksum).result = .ok bytes ∧
        ∃ sum body, (Record.specimen.checksum .network).result = .ok sum ∧ sum = crc32 body ∧
          bytes = body ++ bigEndian 4 sum.toNat := by
  intro rs s
  have hbare : ¬meets 0 Options.checksum := by decide
  have hframed : meets Options.checksum Options.checksum := by decide
  have hrs : ∀ r ∈ rs, r.isEncodable := by decide
  have hroom : s.reserve ((rs.flatMap Record.layout).length + wordSize) = .ok () := rfl
  obtain ⟨hruns, hsingle⟩ := sum_is_trailer .network .storage 0 Options.checksum hbare hframed
  have hbytes : (Record.specimen.encode .storage Options.checksum).result =
      .ok (sealed Options.checksum Record.specimen.layout) :=
    Sizer.encode_of_isEncodable .storage (by decide) (by decide)
  exact ⟨hbare, hframed, hrs, hroom, hruns s rs (by decide) hrs hroom, _, hbytes,
    hsingle _ (by decide) _ hbytes⟩

end Summer

end RecordCodec
