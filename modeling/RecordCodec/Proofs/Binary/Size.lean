import RecordCodec.Binary.Sizer
import RecordCodec.Conversion
import RecordCodec.Proofs.Absorption
import RecordCodec.Proofs.Binary.Success
import RecordCodec.Proofs.Invariant

/-!
# Sizes

A sizer and an encoder that go through the same history agree at every moment, as long as nothing
fails. Both are told of the same leaves, but the trailer they count at different times: the sizer
once and for all when the first run begins, the encoder at the end of each run, after it has taken
the last one off. In between they agree because a trailer that is there in one is counted in the
other.

## Main definitions

* `Sizer.Paces` — the sizer and the encoder, between two steps.

## Main results

* `Sizer.size_lt_of_append` — a size that fits a machine word has always fitted it.
* `Sizer.Paces.perform` — one step keeps the pace.
* `Sizer.size_history` — the measured size is the encoded size, after every history.
-/

namespace RecordCodec

namespace Sizer

/-! ### Sizes only grow -/

/-- The size is no less than `n`. -/
def AtLeast (n : Nat) (t : Traversal Sizer) : Prop :=
  n ≤ t.store.size

section

variable {n : Nat}

theorem ignoresError_atLeast : IgnoresError (AtLeast n) :=
  fun _ ht _ => ht

theorem keeps_add (m : Nat) : (add m).Keeps (AtLeast n) :=
  Act.keeps_check.bind fun _ _ ht => Nat.le_add_right_of_le ht

theorem keeps_addMeasured (name : String) (m : Nat) : (addMeasured name m).Keeps (AtLeast n) := by
  refine Act.keeps_check.bind fun _ => Act.Keeps.bind ?_ fun _ => keeps_add (wordSize + m)
  cases lengthField name m with
  | ok w => exact Act.keeps_pure w
  | error e => exact Act.keeps_fail ignoresError_atLeast e

theorem keeps_measure (kind : Kind) (name : String) (v : kind.Value) :
    (measure kind name v).Keeps (AtLeast n) := by
  cases kind with
  | u32 | u16 | u8 | bool | fixed => exact keeps_add _
  | block flags =>
    refine (Act.keeps_report _).bind fun _ => ?_
    split
    · exact keeps_add _
    · exact keeps_addMeasured name _
  | text => exact keeps_addMeasured name _

theorem keeps_countTrailer : countTrailer.Keeps (AtLeast n) :=
  Act.Keeps.bind (.of_still fun _ => rfl) fun t => by
    split
    · exact Act.keeps_pure ()
    · exact fun _ ht => Nat.le_add_right_of_le ht

/-- **No act of a sizer takes anything off.** -/
theorem keeps_atLeast : Codec.Keeps (AtLeast n) where
  ignores := ignoresError_atLeast
  visit kind name v := (keeps_measure kind name v).bind fun _ => Act.keeps_pure v
  close := Act.keeps_pure ()
  openRun := keeps_countTrailer
  closeRun := Act.keeps_pure ()
  rewind _ ht := ht

/-- **A machine word does not overflow** on the way to a size that it holds. -/
theorem size_lt_of_append {steps more : List Step} {t : Traversal Sizer}
    (h : (performAll (steps ++ more) t).2.1.store.size < UInt64.size) :
    (performAll steps t).2.1.store.size < UInt64.size := by
  rw [performAll_append] at h
  exact Nat.lt_of_le_of_lt (performAll_keeps keeps_atLeast more (Nat.le_refl _)) h

end

/-! ### Leaves -/

instance : TakesBytes Sizer where
  take data s := { s with size := s.size + data.length }
  take_nil _ := rfl
  take_append data more s := by rw [List.length_append, ← Nat.add_assoc]

theorem takes_add {data : Bytes} {n : Nat} (h : n = data.length) : (add n).Takes data :=
  Act.takes_modify fun _ => by rw [h]; rfl

theorem takes_addMeasured (name : String) {data : Bytes} (h : data.length < UInt32.size) :
    (addMeasured name data.length).Takes (bigEndian 4 data.length ++ data) := by
  have hfield : lengthField name data.length = .ok (UInt32.ofNat data.length) :=
    lengthField_eq_ok_iff.mpr ⟨h, rfl⟩
  have hlength : wordSize + data.length = (bigEndian 4 data.length ++ data).length := by
    rw [List.length_append, length_bigEndian, wordSize]
  exact Act.takes_check.seq (.of_require hfield (takes_add hlength))

/-- **A leaf is measured** as its form is long. -/
theorem takes_leaf {l : Leaf} (h : l.isMeasurable) :
    (measure l.kind l.name l.value).Takes l.layout := by
  obtain ⟨name, kind, v⟩ := l
  cases kind with
  | u32 => exact takes_add (length_bigEndian 4 v.toNat).symm
  | u16 => exact takes_add (length_bigEndian 2 v.toNat).symm
  | u8 => exact takes_add (length_bigEndian 1 v.toNat).symm
  | bool => exact takes_add rfl
  | fixed => exact takes_add rfl
  | block flags =>
    simp only [Leaf.isMeasurable, Kind.isMeasurable] at h
    simp only [measure, Leaf.layout, Kind.layout]
    by_cases hterm : meets flags BlockFlags.terminated
    · have hlength : v.length + 1 = (v.toBytes ++ [0]).length := by
        rw [List.length_append]
        rfl
      simp only [if_pos hterm]
      exact (Act.takes_report _).seq (takes_add hlength)
    · rw [eq_false_of_ne_true hterm, Bool.false_or, decide_eq_true_iff] at h
      simp only [if_neg hterm]
      exact (Act.takes_report _).seq (takes_addMeasured name h)
  | text =>
    simp only [Leaf.isMeasurable, Kind.isMeasurable, decide_eq_true_iff] at h
    exact takes_addMeasured name h

/-! ### Records -/

theorem faithful_add (n : Nat) : (add n).Faithful :=
  Act.faithful_check.bind fun _ => Act.faithful_modifyStore _

theorem faithful_addMeasured (name : String) (n : Nat) : (addMeasured name n).Faithful :=
  Act.faithful_check.bind fun _ => (Act.faithful_require _).bind fun _ => faithful_add _

theorem faithful_measure (kind : Kind) (name : String) (v : kind.Value) :
    (measure kind name v).Faithful := by
  cases kind with
  | u32 | u16 | u8 | bool | fixed => exact faithful_add _
  | block flags =>
    refine (Act.faithful_report _).bind fun _ => ?_
    by_cases h : meets flags BlockFlags.terminated
    · rw [if_pos h]
      exact faithful_add _
    · rw [if_neg h]
      exact faithful_addMeasured name _
  | text => exact faithful_addMeasured name _

theorem visit_eq_measure (kind : Kind) (name : String) (v : kind.Value) :
    Codec.visit (σ := Sizer) kind name v = measure kind name v >>= fun _ => pure v := rfl

instance : Codec.Observing Sizer :=
  .of_acts visit_eq_measure faithful_measure (Act.faithful_pure ())

instance : Measures Sizer :=
  .of_acts visit_eq_measure (fun _ => takes_leaf) Act.takes_pure

/-! ### Runs -/

/-- A sizer that has counted the trailer, if there is to be one. -/
def withTrailer (options : Mask) (s : Sizer) : Sizer :=
  if s.framed || !meets options Options.checksum then s
  else { s with size := s.size + wordSize, framed := true }

variable {t : Traversal Sizer}

theorem countTrailer_eq (t : Traversal Sizer) :
    countTrailer t = ⟨.ok (), { t with store := t.store.withTrailer t.options }, []⟩ := by
  have hwant : (t.store.framed || !t.has Options.checksum) =
      (t.store.framed || !meets t.options Options.checksum) := rfl
  simp only [countTrailer, Act.bind_apply, Act.state, hwant, withTrailer]
  by_cases h : t.store.framed || !meets t.options Options.checksum
  · simp only [if_pos h, Act.pure_apply, List.append_nil]
  · simp only [if_neg h, Act.modifyStore, List.append_nil]

/-- **A run** counts the trailer, if that was not done yet, and measures its record. -/
theorem run_record {r : Record} (hr : r.isData) (hfit : LeavesFit Leaf.isMeasurable r.stops)
    (ht : t.error = none) (hdir : t.direction ≠ .decode) :
    ∃ log, run r t = ⟨.ok (), r, { t with
      store := TakesBytes.take r.layout (t.store.withTrailer t.options) }, log⟩ := by
  obtain ⟨log, hvisit⟩ := Measures.visit_record
    (t := { t with store := t.store.withTrailer t.options }) hr hfit ht hdir
  exact ⟨_, run_of_visit ht (countTrailer_eq t) hvisit rfl ht⟩

/-- A sizer counts the trailer once. -/
theorem framed_withTrailer (options : Mask) (s : Sizer) :
    (s.withTrailer options).framed = (s.framed || meets options Options.checksum) := by
  rw [withTrailer]
  cases hf : s.framed <;> cases hc : meets options Options.checksum <;> simp [hf]

theorem size_withTrailer {options : Mask} {s : Sizer}
    (h : s.framed → meets options Options.checksum) :
    (s.withTrailer options).size + (if s.framed then wordSize else 0) =
      s.size + trailerLength options := by
  rw [withTrailer, trailerLength]
  cases hf : s.framed with
  | true => rw [Bool.true_or, if_pos rfl, if_pos rfl, if_pos (h hf)]
  | false =>
    rw [Bool.false_or, if_neg Bool.false_ne_true, Nat.add_zero]
    cases meets options Options.checksum <;> rfl

/-! ### Histories -/

/-- The encoder and the sizer are in order, and the sizer has measured what the encoder has put
behind the first `before` bytes of its sink. -/
structure Paces (before : Nat) (t : Traversal Encoder) (u : Traversal Sizer) : Prop where
  clean : t.error = none
  clean' : u.error = none
  encodes : t.direction ≠ .decode
  inspects : u.direction ≠ .decode
  options : u.options = t.options
  length : t.store.sink.length = before + u.store.size
  framed : u.store.framed = t.store.framed
  /-- Where the sink ends in a trailer, the options ask for one, and it was counted. -/
  trailer : t.store.framed → meets t.options Options.checksum ∧ wordSize ≤ u.store.size

namespace Paces

variable {before : Nat} {t : Traversal Encoder} {u : Traversal Sizer}

theorem start (context context' : Context) (options : Mask) (s : Sink) :
    Paces s.length (Encoder.start context options s) (Sizer.start context' options) where
  clean := rfl
  clean' := rfl
  encodes := nofun
  inspects := nofun
  options := rfl
  length := rfl
  framed := rfl
  trailer := nofun

theorem visit {f : Field} (hf : f.isData) (h : Paces before t u)
    (hok : (f.visit t).result = .ok ()) :
    (f.visit u).result = .ok () ∧ Paces before (f.visit t).state (f.visit u).state := by
  obtain ⟨hfit, s, hgrown, hstate⟩ := Encoder.visit_succeeded hf h.clean h.encodes hok
  obtain ⟨log, hvisit⟩ := Measures.visit_field hf hfit.measurable h.clean' h.inspects
  rw [hvisit, hstate]
  refine ⟨rfl, h.clean, h.clean', h.encodes, h.inspects, h.options, ?_, h.framed, ?_⟩
  · rw [hgrown.length, h.length, Nat.add_assoc]
    rfl
  · intro hframed
    obtain ⟨hc, hcounted⟩ := h.trailer hframed
    exact ⟨hc, Nat.le_add_right_of_le hcounted⟩

/-- What is left of the sink when the last trailer is taken off. -/
theorem length_dropTrailer (h : Paces before t u) :
    t.store.dropTrailer.sink.length + (if u.store.framed then wordSize else 0) =
      before + u.store.size := by
  by_cases hframed : t.store.framed
  · obtain ⟨-, hcounted⟩ := h.trailer hframed
    rw [Encoder.dropTrailer_of_framed hframed, Sink.length_resize, h.length, h.framed,
      if_pos hframed]
    omega
  · rw [Encoder.dropTrailer_of_not_framed hframed, h.framed, if_neg hframed, h.length,
      Nat.add_zero]

theorem run {r : Record} (hr : r.isData) (h : Paces before t u)
    (hok : (run r t).result = .ok ()) :
    (RecordCodec.run r u).result = .ok () ∧
      Paces before (RecordCodec.run r t).state (RecordCodec.run r u).state := by
  obtain ⟨-, hfit, s, s', hgrown, hgrown', hstate⟩ := Encoder.run_succeeded hr h.encodes hok
  obtain ⟨log, hrun⟩ := run_record hr hfit.measurable h.clean' h.inspects
  rw [hrun, hstate]
  have hcounted : u.store.framed → meets u.options Options.checksum := by
    rw [h.framed, h.options]
    exact fun hframed => (h.trailer hframed).1
  have hwithout := h.length_dropTrailer
  have hwith := size_withTrailer hcounted
  rw [h.options] at hwith
  refine ⟨rfl, h.clean, h.clean', h.encodes, h.inspects, h.options, ?_, ?_, ?_⟩
  · -- without the old trailer the two were level, and both get the new one
    change s'.length = before + ((u.store.withTrailer u.options).size + r.layout.length)
    rw [hgrown'.length, hgrown.length, length_trailer, h.options]
    omega
  · change (u.store.withTrailer u.options).framed = meets t.options Options.checksum
    rw [framed_withTrailer, ← h.options]
    exact Bool.or_eq_right_iff_imp.mpr hcounted
  · intro hc
    refine ⟨hc, ?_⟩
    change wordSize ≤ (u.store.withTrailer u.options).size + r.layout.length
    have hword : trailerLength t.options = wordSize := if_pos hc
    rw [h.options]
    by_cases hframed : u.store.framed
    · have hold := (h.trailer (h.framed ▸ hframed)).2
      rw [if_pos hframed] at hwith
      omega
    · rw [if_neg hframed] at hwith
      omega

/-- **One step** that the encoder does well, the sizer does well too, and they are level again. -/
theorem perform {step : Step} (hstep : step.isData) (h : Paces before t u)
    (hok : (step.perform t).reply.succeeded) :
    (step.perform u).reply.succeeded ∧
      Paces before (step.perform t).state (step.perform u).state := by
  cases step with
  | run r =>
    obtain ⟨hresult, hstate⟩ := h.run hstep (Reply.succeeded_ran_iff.mp hok)
    exact ⟨Reply.succeeded_ran_iff.mpr hresult, hstate⟩
  | visit f =>
    obtain ⟨hresult, hstate⟩ := h.visit hstep (Reply.succeeded_visited_iff.mp hok)
    exact ⟨Reply.succeeded_visited_iff.mpr hresult, hstate⟩
  | takeError | fail _ | rewind => exact absurd hstep Bool.false_ne_true

/-- **A history** that the encoder does well, step by step. -/
theorem performAll {steps : List Step} (hsteps : ∀ step ∈ steps, step.isData)
    (h : Paces before t u)
    (hok : ∀ reply ∈ (RecordCodec.performAll steps t).1, reply.succeeded) :
    (∀ reply ∈ (RecordCodec.performAll steps u).1, reply.succeeded) ∧
      Paces before (RecordCodec.performAll steps t).2.1
        (RecordCodec.performAll steps u).2.1 := by
  induction steps generalizing t u with
  | nil => exact ⟨nofun, h⟩
  | cons step steps ih =>
    obtain ⟨hfirst, hothers⟩ := List.forall_mem_cons.mp hok
    obtain ⟨hreply, hnext⟩ := h.perform (hsteps step List.mem_cons_self) hfirst
    obtain ⟨hreplies, hlast⟩ :=
      ih (fun s hs => hsteps s (List.mem_cons_of_mem step hs)) hnext hothers
    exact ⟨List.forall_mem_cons.mpr ⟨hreply, hreplies⟩, hlast⟩

end Paces

/-! ### Single records -/

section

variable {r : Record} {context : Context} {options : Mask}

/-- A sizer leaves a record that it could measure as it was. -/
theorem record_encodedSize (hr : r.isData) {n : Nat}
    (h : (r.encodedSize context options).result = .ok n) :
    (r.encodedSize context options).record = r := by
  have hrun : (run r (start context options)).result = .ok () := by
    cases hresult : (run r (start context options)).result with
    | ok u => rfl
    | error e =>
      rw [Record.encodedSize, Report.ofRun, hresult] at h
      exact absurd h nofun
  obtain ⟨-, -, -, -, hvalue, -⟩ := RecordCodec.run_succeeded (fun _ => id) hrun
  let opened : Traversal Sizer := { start context options with
    store := withTrailer options (start context options).store }
  have hopen : (Codec.openRun : Act Sizer Unit) (start context options) = ⟨.ok (), opened, []⟩ :=
    countTrailer_eq (start context options)
  have hvisit := Record.visit_eq_walk (t := opened) hr rfl nofun
  rw [hopen, hvisit] at hvalue
  exact hvalue

/-- An encoding that succeeded is a run that succeeded. -/
theorem encode_eq_ok {bytes : Bytes} (hr : r.isData)
    (h : (r.encode context options).result = .ok bytes) :
    let written := run r (Encoder.start context options (Sink.empty none))
    written.result = .ok () ∧ bytes = written.state.store.sink.committed := by
  cases hsize : (r.encodedSize context options).result with
  | error e =>
    simp only [Record.encode, hsize] at h
    exact absurd h nofun
  | ok n =>
    simp only [Record.encode, hsize, record_encodedSize hr hsize, Report.ofRun] at h
    cases hresult : (run r (Encoder.start context options (Sink.empty none))).result with
    | error e =>
      rw [hresult] at h
      exact absurd h nofun
    | ok u =>
      rw [hresult] at h
      exact ⟨hresult, (Except.ok.inj h).symm⟩

/-- **A record that has a binary form** is encoded as that form, sealed, if memory has room. -/
theorem encode_of_isEncodable (context : Context) {options : Mask} (hr : r.isEncodable)
    (hroom : (sealed options r.layout).length ≤ maxLength) :
    (r.encode context options).result = .ok (sealed options r.layout) := by
  obtain ⟨hdata, hfit, -⟩ := Record.isSerial_iff.mp hr
  obtain ⟨log, hmeasured⟩ :=
    run_record (t := start context options) hdata hfit.measurable rfl nofun
  rw [length_sealed] at hroom
  have hstart : Encoder.Wrote [] [] (r.layout.length + 0)
      (Encoder.start context options (Sink.empty none)) :=
    Encoder.wrote_start (Sink.reserve_empty_iff.mpr hroom)
  obtain ⟨t, log', hwritten, hoptions, hended⟩ := hstart.run hr
  have hcommitted := hended.committed
  rw [hoptions] at hcommitted
  have hmeasured' : r.encodedSize context options = _ := congrArg (Report.ofRun · _) hmeasured
  simp only [Record.encode, hmeasured', Report.ofRun, hwritten]
  exact congrArg Except.ok hcommitted

end

/-- **Measured is encoded.** After a history of runs and visits that an encoder does well, whatever
sink it writes to, a sizer has done well too, and its size is the number of bytes that the encoder
has put into the sink. So the size that is measured for a record before it is encoded is right. -/
theorem size_history (context context' : Context) (options : Mask) :
    (∀ (s : Sink) (steps : List Step), (∀ step ∈ steps, step.isData) →
      let written := performAll steps (Encoder.start context options s)
      let measured := performAll steps (start context' options)
      (∀ reply ∈ written.1, reply.succeeded) →
        (∀ reply ∈ measured.1, reply.succeeded) ∧
          written.2.1.store.sink.length = s.length + measured.2.1.store.size) ∧
    ∀ r : Record, r.isData → ∀ bytes : Bytes, (r.encode context options).result = .ok bytes →
      (r.encodedSize context' options).result = .ok bytes.length := by
  refine ⟨?_, ?_⟩
  · intro s steps hsteps written measured hok
    obtain ⟨hreplies, hpaces⟩ := (Paces.start context context' options s).performAll hsteps hok
    exact ⟨hreplies, hpaces.length⟩
  · intro r hr bytes hbytes
    obtain ⟨hwritten, rfl⟩ := encode_eq_ok hr hbytes
    obtain ⟨hmeasured, hpaces⟩ :=
      (Paces.start context context' options (Sink.empty none)).run hr hwritten
    obtain ⟨-, hgrown⟩ := Encoder.first_run_succeeded hr rfl hwritten
    rw [hgrown.exact rfl, hpaces.length, Record.encodedSize, Report.ofRun, hmeasured]
    exact congrArg Except.ok (Nat.zero_add _).symm

/-- A field between two runs, and a record alone. -/
theorem size_history_specimen :
    let steps := [.run Record.specimen, .visit (.leaf "x" .u32 5), .run Record.specimen]
    let written := performAll steps (Encoder.start .network Options.checksum (Sink.empty none))
    let measured := performAll steps (start .storage Options.checksum)
    (∀ step ∈ steps, step.isData) ∧ (∀ reply ∈ written.1, reply.succeeded) ∧
      (∀ reply ∈ measured.1, reply.succeeded) ∧
      written.2.1.store.sink.length = 0 + measured.2.1.store.size ∧
      ∃ bytes, (Record.specimen.encode .network Options.checksum).result = .ok bytes ∧
        (Record.specimen.encodedSize .storage Options.checksum).result = .ok bytes.length := by
  intro steps written measured
  have hsteps : ∀ step ∈ steps, step.isData := by decide
  have hok : ∀ reply ∈ written.1, reply.succeeded := by decide
  have hsize := size_history .network .storage Options.checksum
  obtain ⟨hreplies, hlength⟩ := hsize.1 (Sink.empty none) steps hsteps hok
  refine ⟨hsteps, hok, hreplies, hlength, ?_⟩
  have hbytes : (Record.specimen.encode .network Options.checksum).result =
      .ok (sealed Options.checksum Record.specimen.layout) :=
    encode_of_isEncodable .network (by decide) (by decide)
  exact ⟨_, hbytes, hsize.2 _ (by decide) _ hbytes⟩

end Sizer

end RecordCodec
