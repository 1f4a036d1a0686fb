import RecordCodec.Proofs.Binary.Digest
import RecordCodec.Proofs.Key.Encoding
import RecordCodec.Proofs.Moments
import RecordCodec.Proofs.Registry.Lookup

/-!
# Codecs that look and do not touch

A visit could change its record, whatever the codec: every part of it gives a value back, a signed
integer goes through its carrier and returns, and a sequence is put together from its items anew. In
the hands of a codec that does not decode, a record of data comes back as it was all the same, from
whatever state the codec was in, and wherever it failed.

That a codec does not decode is a matter of its state, since a sequence asks the state what it is to
do. So it must be seen that no act of such a codec turns it into a decoder.

## Main definitions

* `Codec.Looking` — a codec that gives values back and does not begin to decode.
* `Record.Untouched` — a run leaves the record alone, at whatever moment of the codec.

## Main results

* `Record.visit_value` — a visit leaves a record of data alone.
* `Record.untouched` — encoders, sizers, summers and dumps do, and hence an object does not depend
  on whether it is announced.
-/

namespace RecordCodec

variable {σ α : Type}

/-! ### Codecs that do not begin to decode -/

/-- A codec that looks at values, and none of whose acts makes it decode. -/
class Codec.Looking (σ : Type) [Codec σ] : Prop extends Codec.Observing σ where
  keeps : Codec.Keeps fun t : Traversal σ => t.direction ≠ .decode

theorem Act.Faithful.keeps_direction {act : Act σ α} (h : act.Faithful) (d : Direction) :
    act.Keeps fun t => t.direction ≠ d := by
  intro t ht
  rw [(h.settings t).direction]
  exact ht

/-- A codec whose acts are faithful does not begin to decode at a leaf. What is left is how it
begins and ends its runs. -/
theorem Codec.Looking.of_runs [Codec σ] [Codec.Observing σ]
    (hopen : (Codec.openRun : Act σ Unit).Keeps fun t => t.direction ≠ .decode)
    (hclose : (Codec.closeRun : Act σ Unit).Keeps fun t => t.direction ≠ .decode) :
    Codec.Looking σ where
  keeps :=
    { ignores := fun _ ht _ => ht
      visit := fun kind name v => (Codec.Lawful.visit_faithful kind name v).keeps_direction .decode
      close := Codec.Lawful.close_faithful.keeps_direction .decode
      openRun := hopen
      closeRun := hclose
      rewind := fun _ ht => ht }

theorem Encoder.faithful_putTrailer : putTrailer.Faithful :=
  Act.faithful_store.bind fun _ => (faithful_put _).bind fun _ =>
    (Act.faithful_modifyStore _).bind fun _ => Act.faithful_report _

instance : Codec.Looking Encoder :=
  .of_runs ((Act.faithful_modifyStore _).keeps_direction _) <|
    Act.Keeps.bind (.of_still fun _ => rfl) fun t => by
      by_cases h : t.error.isSome || !t.has Options.checksum
      · rw [if_pos h]
        exact Act.keeps_pure ()
      · rw [if_neg h]
        exact Encoder.faithful_putTrailer.keeps_direction _

instance : Codec.Looking KeyEncoder :=
  .of_runs (Act.keeps_pure ()) (Act.keeps_pure ())

instance : Codec.Looking Sizer :=
  .of_runs (fun t ht => by
    show (Sizer.countTrailer t).state.direction ≠ .decode
    rw [Sizer.countTrailer_eq]
    exact ht) (Act.keeps_pure ())

instance : Codec.Looking Summer :=
  .of_runs (Act.keeps_pure ()) (Act.keeps_pure ())

instance : Codec.Looking Dump :=
  .of_runs ((Act.faithful_modifyStore _).keeps_direction _)
    ((Act.faithful_modifyStore _).keeps_direction _)

/-! ### Visits

Nothing is asked of the stored error here, and nothing of the result. The state is followed only for
its direction. -/

variable [Codec σ]

mutual

theorem Field.visit_value [Codec.Looking σ] : ∀ {f : Field}, f.isData →
    ∀ {t : Traversal σ}, t.direction ≠ .decode → (f.visit t).value = f
  | .leaf name kind v, _, t, _ => by
    rw [Field.visit, visitLeaf_eq_perform]
    rfl
  | .signed name width v, _, t, _ => by
    rw [Field.visit, visitSigned_eq_perform]
    rfl
  | .nested name body, h, t, ht => by
    have hbody := value_visitNested (P := fun r => r = body) rfl t (Record.visit_value h ht)
    exact congrArg (Field.nested name) hbody
  | .sequence name items blank, h, t, ht => by
    have hcount := visitLeaf_keeps Codec.Looking.keeps .u32 name (UInt32.ofNat items.length) t ht
    rw [Field.visit]
    cases (visitLeaf .u32 name (UInt32.ofNat items.length) t).result with
    | error e => rfl
    | ok u =>
      have hitems := visitItems_value h hcount
      cases hdir : (visitLeaf .u32 name (UInt32.ofNat items.length) t).state.direction with
      | decode => exact absurd hdir hcount
      | encode | inspect => exact congrArg (Field.sequence name · blank) hitems

/-- **A visit leaves a record of data alone**, whether it fails or not. -/
theorem Record.visit_value [Codec.Looking σ] : ∀ {r : Record}, r.isData →
    ∀ {t : Traversal σ}, t.direction ≠ .decode → (r.visit t).value = r
  | .strict _, h, _, ht => congrArg Record.strict (visitFields_value h ht)

theorem visitFields_value [Codec.Looking σ] : ∀ {fs : List Field}, fieldsData fs →
    ∀ {t : Traversal σ}, t.direction ≠ .decode → (visitFields fs t).value = fs
  | [], _, _, _ => rfl
  | f :: fs, h, t, ht => by
    rw [fieldsData, Bool.and_eq_true] at h
    have hfirst := Field.visit_value h.1 ht
    have hothers := visitFields_value h.2 (Field.visit_keeps Codec.Looking.keeps f t ht)
    rw [visitFields]
    cases (f.visit t).result with
    | error e => exact congrArg (· :: fs) hfirst
    | ok u => exact congrArg₂ List.cons hfirst hothers

theorem visitItems_value [Codec.Looking σ] : ∀ {rs : List Record}, itemsData rs →
    ∀ {t : Traversal σ}, t.direction ≠ .decode → (visitItems rs t).value = rs
  | [], _, _, _ => rfl
  | r :: rs, h, t, ht => by
    rw [itemsData, Bool.and_eq_true] at h
    have hfirst := value_visitNested (P := fun s => s = r) rfl t (Record.visit_value h.1 ht)
    have hothers := visitItems_value h.2
      (visitNested_keeps Codec.Looking.keeps (Record.visit_keeps Codec.Looking.keeps r) r t ht)
    rw [visitItems]
    cases (visitNested r.visit r t).result with
    | error e => exact congrArg (· :: rs) hfirst
    | ok u => exact congrArg₂ List.cons hfirst hothers

end

/-! ### Runs -/

/-- A run leaves the record alone, at whatever moment of a codec that was started so. -/
def Record.Untouched (r : Record) (start : Traversal σ) : Prop :=
  ∀ t, Codec.Moment (fun _ => True) start t → (run r t).value = r

/-- A codec that was not started as a decoder leaves a record of data alone. -/
theorem Record.untouched_of_isData [Codec.Looking σ] {r : Record} (hr : r.isData)
    {start : Traversal σ} (hstart : start.direction ≠ .decode) : r.Untouched start := by
  intro t ht
  have hdir : t.direction ≠ .decode := ht.invariant Codec.Looking.keeps hstart
  exact run_value (P := fun s => s = r) rfl fun _ _ =>
    Record.visit_value hr (Codec.Looking.keeps.openRun t hdir)

/-- The first run of a codec. -/
theorem Record.Untouched.first {r : Record} {start : Traversal σ} (h : r.Untouched start) :
    (run r start).value = r :=
  h start .start

/-! ### Objects -/

namespace Collection

variable {c : Collection} {code : UInt32}

/-- **An object that was plain to begin with** does not depend on whether it is announced, nor does
the error if there is none. -/
theorem result_make_traced
    (hplain : ∀ r, c.catalogue.find? code = some r → ∀ blank, r.blank = .ok blank → blank.isPlain)
    (traced : Bool) (family : TypeTag) (payload : Bytes) (options : Mask) :
    (c.make traced family code payload options).result =
      (c.make false family code payload options).result := by
  by_cases howned : (c.catalogue.rangeOf family).any (·.contains code)
  · cases hfind : c.catalogue.find? code with
    | none =>
      have hentry : c.entry? family code = none := (if_pos howned).trans hfind
      rw [make_of_no_entry hentry, make_of_no_entry hentry]
    | some r =>
      cases hblank : r.blank with
      | error e =>
        rw [make_of_unbuildable howned hfind hblank, make_of_unbuildable howned hfind hblank]
      | ok blank =>
        rw [make_of_blank howned hfind hblank, make_of_blank howned hfind hblank]
        cases hdecoded : (blank.decode payload c.catalogue.context options).result with
        | error e => rw [fill_of_error hdecoded, fill_of_error hdecoded]
        | ok u =>
          rw [fill_of_plain (.inr (hplain r hfind blank hblank)) hdecoded,
            fill_of_plain (.inl rfl) hdecoded]
  · rw [make_of_not_owned howned, make_of_not_owned howned]

end Collection

/-- **Looking does not touch.** A record of data is what it was after every run of an encoder into
whatever sink, of a sizer, of a summer and of a dump, at whatever moment of the codec, and whether
the run succeeds or fails. So a conversion gives the record back, and a second encoding is like the
first. And an object whose type has a plain blank object does not depend on whether it is announced
in a trace, where a dump visits it. -/
theorem Record.untouched {r : Record} (hr : r.isData) (context : Context) (options : Mask)
    (border : Option String) (s : Sink) (storage : Bytes) :
    (r.Untouched (Encoder.start context options s) ∧ r.Untouched (KeyEncoder.start border s) ∧
      r.Untouched (Sizer.start context options) ∧ r.Untouched (Summer.start context) ∧
      r.Untouched (Dump.start context options)) ∧
    ((r.encodedSize context options).record = r ∧ (r.encode context options).record = r ∧
      (r.encodeInto storage context options).1.record = r ∧ (r.checksum context).record = r ∧
      (r.key border).record = r ∧ (r.dump options).record = r) ∧
    (r.encode context options).record.encode context options = r.encode context options ∧
    ∀ (c : Collection) (family : TypeTag) (code : UInt32) (payload : Bytes),
      (∀ reg, c.catalogue.find? code = some reg → ∀ blank, reg.blank = .ok blank → blank.isPlain) →
        (c.make true family code payload options).result =
          (c.make false family code payload options).result ∧
        (c.makeTyped true family code payload options).result =
          (c.makeTyped false family code payload options).result := by
  have hencodes : Direction.encode ≠ .decode := by decide
  have hinspects : Direction.inspect ≠ .decode := by decide
  have hencoder (s : Sink) : r.Untouched (Encoder.start context options s) :=
    untouched_of_isData hr hencodes
  have hkey (s : Sink) : r.Untouched (KeyEncoder.start border s) :=
    untouched_of_isData hr hencodes
  have hsizer : r.Untouched (Sizer.start context options) := untouched_of_isData hr hinspects
  have hsummer : r.Untouched (Summer.start context) := untouched_of_isData hr hinspects
  have hdump (context : Context) : r.Untouched (Dump.start context options) :=
    untouched_of_isData hr hinspects
  have hencode : (r.encode context options).record = r := by
    have hsize : (r.encodedSize context options).record = r := hsizer.first
    rw [encode]
    cases (r.encodedSize context options).result with
    | error e => exact hsize
    | ok n =>
      dsimp only
      rw [hsize]
      exact (hencoder (Sink.empty none)).first
  refine ⟨⟨hencoder s, hkey s, hsizer, hsummer, hdump context⟩,
    ⟨hsizer.first, hencode, (hencoder _).first, hsummer.first, (hkey (Sink.empty none)).first,
      (hdump .storage).first⟩, ?_, fun c family code payload hplain => ⟨?_, ?_⟩⟩
  · exact congrArg (Record.encode · context options) hencode
  · exact Collection.result_make_traced hplain true family payload options
  · rw [Collection.result_makeTyped, Collection.result_makeTyped,
      Collection.result_make_traced hplain true]

/-- A record with a part of every shape, in a sink that it does not fit into; and the announcement
of a number. -/
theorem Record.untouched_specimen :
    specimen.isData ∧
      (run specimen (Encoder.start .network 0 (.fixed [0, 0, 0, 0, 0, 0] 0))).result =
        .error (.bufferExhausted 1 0) ∧
      (run specimen (Encoder.start .network 0 (.fixed [0, 0, 0, 0, 0, 0] 0))).value = specimen ∧
      ∃ c : Collection,
        c.catalogue.types = [⟨1, "Number", ⟨"Number"⟩, .ok (.strict [.signed "n" .i8 0])⟩] ∧
          (c.make true ⟨"Number"⟩ 1 [255] 0).result =
            (c.make false ⟨"Number"⟩ 1 [255] 0).result := by
  have hdata : specimen.isData := by decide
  let c : Collection := ⟨⟨"numbers", .unknown,
    [⟨1, "Number", ⟨"Number"⟩, .ok (.strict [.signed "n" .i8 0])⟩], []⟩, rfl⟩
  have hplain : ∀ reg, c.catalogue.find? 1 = some reg → ∀ blank, reg.blank = .ok blank →
      blank.isPlain := by
    rintro reg ⟨⟩ blank ⟨⟩
    rfl
  obtain ⟨⟨hencoder, -⟩, -, -, hmake⟩ :=
    untouched hdata .network 0 none (.fixed [0, 0, 0, 0, 0, 0] 0) []
  exact ⟨hdata, by decide +kernel, hencoder _ .start, c, rfl, (hmake c ⟨"Number"⟩ 1 [255] hplain).1⟩

end RecordCodec
