import RecordCodec.Conversion
import RecordCodec.Proofs.Binary.Success
import RecordCodec.Proofs.Leniency
import RecordCodec.Proofs.Sink.Overrun

/-!
# Encoding into storage of any size

What a record encodes to does not depend on where it is encoded to. So encoding into given storage
has two outcomes: all of the bytes come in, or a front of them does, up to the write that found no
room. In either case nothing else of the storage is touched.

The first refused write ends it, also for a lenient record, whose later and smaller fields would
still have fit. Nor can a trailer stand behind a record that came in by half.

## Main results

* `Encoder.overruns_leaf` — a leaf without room for it.
* `Encoder.run_passive_succeeded` — what a first run that succeeds has written.
* `Record.encodeInto_outcome` — encoding into storage of any size.
-/

namespace RecordCodec

namespace Encoder

/-! ### Leaves -/

variable {e : Encoder}

theorem overruns_put (data : Bytes) : Act.Overruns e (put data) data :=
  Act.overruns_append data

theorem overruns_putMeasured (name : String) {data : Bytes} (h : data.length < UInt32.size) :
    Act.Overruns e (putMeasured name data) (bigEndian 4 data.length ++ data) := by
  have hfield : lengthField name data.length = .ok (UInt32.ofNat data.length) :=
    lengthField_eq_ok_iff.mpr ⟨h, rfl⟩
  have hword : Act.Overruns e (putWord name (UInt32.ofNat data.length))
      (bigEndian 4 (UInt32.ofNat data.length).toNat) := (overruns_put _).ahead _
  have hbody : Act.Overruns e (do putWord name (UInt32.ofNat data.length); put data)
      (bigEndian 4 (UInt32.ofNat data.length).toNat ++ data) :=
    hword.bind (writes_putWord name _) (overruns_put data)
  rw [UInt32.toNat_ofNat_of_lt' h] at hbody
  exact Act.Overruns.behind (Act.Overruns.behind hbody (Act.writes_require hfield))
    Act.writes_check

theorem overruns_putTerminated (name : String) {data : Bytes} (h : data.contains 0 = false) :
    Act.Overruns e (putTerminated name data) (data ++ [0]) := by
  have hput : Act.Overruns e
      (if data.contains 0 then Act.fail (.embeddedTerminator name) else put (data ++ [0]))
      (data ++ [0]) := by
    rw [h]
    exact overruns_put _
  exact Act.Overruns.behind hput Act.writes_check

/-- **A leaf without room for it** is written in part, and refused. -/
theorem overruns_leaf {l : Leaf} (h : l.isEncodable) :
    Act.Overruns e (write l.kind l.name l.value) l.layout := by
  obtain ⟨name, kind, v⟩ := l
  cases kind with
  | u32 => exact (overruns_put (bigEndian 4 v.toNat)).ahead _
  | u16 => exact (overruns_put (bigEndian 2 v.toNat)).ahead _
  | u8 =>
    have hlayout : (⟨name, .u8, v⟩ : Leaf).layout = [v] := bigEndian_byte v
    rw [hlayout]
    exact (overruns_put [v]).ahead _
  | bool => exact (overruns_put [if v then 1 else 0]).ahead _
  | fixed => exact (overruns_put v).ahead _
  | block flags =>
    simp only [Leaf.isEncodable, Kind.isEncodable] at h
    simp only [write, Leaf.layout, Kind.layout]
    by_cases hterm : meets flags BlockFlags.terminated
    · rw [if_pos hterm, Bool.not_eq_true'] at h
      simp only [if_pos hterm]
      exact (overruns_putTerminated name h).ahead _
    · rw [if_neg hterm, decide_eq_true_iff] at h
      simp only [if_neg hterm]
      exact (overruns_putMeasured name h).ahead _
  | text =>
    simp only [Leaf.isEncodable, Kind.isEncodable, decide_eq_true_iff] at h
    exact (overruns_putMeasured name h).ahead _

theorem overruns_stop {s : Stop} (h : ∀ l, s = .leaf l → l.isEncodable) :
    Act.Overruns e s.perform s.layout := by
  cases s with
  | leaf l =>
    rw [Stop.perform_leaf visit_eq_write]
    exact (overruns_leaf (h l rfl)).ahead _
  | close => exact Act.overruns_nil _

/-! ### Walks and trailers -/

variable {ss : List Stop}

theorem overruns_walk (h : LeavesFit Leaf.isEncodable ss) :
    Act.Overruns e (walk ss) (ss.flatMap Stop.layout) :=
  walk_overruns (fun _ hs => writes_stop fun _ => h.of_mem hs) fun _ hs =>
    overruns_stop fun _ => h.of_mem hs

/-- A trailer without room for it. -/
theorem finish_overruns {t : Traversal Encoder} (storage : Bytes) (n : Nat) (ht : t.error = none)
    (hsink : t.store.sink = .fixed storage n) (hn : n ≤ storage.length)
    (h : storage.length - n < (trailer t.options t.store.body).length) :
    ∃ e s, s.Overrun storage n (trailer t.options t.store.body) e ∧
      (finish t).state = { t with error := some e, store := { t.store with sink := s } } := by
  by_cases hc : meets t.options Options.checksum
  · rw [trailer_of_meets hc] at h ⊢
    have hstore : t.store = { t.store with sink := .fixed storage n } := by rw [← hsink]
    obtain ⟨e, s, hs, hresult, hstate⟩ := overruns_put (e := t.store) _ t storage n ht hstore hn h
    refine ⟨e, s, hs, ?_⟩
    rw [finish_of_meets ht hc]
    simp only [putTrailer, Act.bind_apply, Act.store, hresult]
    exact hstate
  · rw [trailer_of_not_meets hc] at h
    exact absurd h (Nat.not_lt_zero _)

/-! ### First runs of passive records -/

instance : Codec.Freezing Encoder where
  visit_tells kind name v := .of_faithful (Codec.Lawful.visit_faithful kind name v)
    (Codec.Refusing.visit_refuses kind name v)
  visit_freezes kind name v := (Codec.Refusing.visit_refuses kind name v).freezes
  close_tells := Act.tells_pure ()
  close_freezes := Act.freezes_pure ()

section

variable {r : Record} (hr : r.isPassive) {context : Context} {options : Mask} {s : Sink}

include hr

theorem first_run_passive (context : Context) (options : Mask) (s : Sink) :
    (run r (start context options s)).state =
        (finish (walk r.stops (start context options s)).state).state ∧
      (run r (start context options s)).result =
        (run r (start context options s)).state.check :=
  run_state_eq_walk hr rfl rfl nofun

/-- **What a first run that succeeds has written.** -/
theorem run_passive_succeeded (hs : s.committed.length = s.length)
    (h : (run r (start context options s)).result = .ok ()) :
    LeavesFit Leaf.isEncodable r.stops ∧
      s.Grown (sealed options r.layout) (run r (start context options s)).state.store.sink := by
  obtain ⟨hstate, hresult⟩ := first_run_passive hr context options s
  rw [hresult, hstate, Traversal.check_eq_ok_iff] at h
  rw [hstate]
  have hwalked : (walk r.stops (start context options s)).state.error = none :=
    Classical.byContradiction fun hstored => finish_of_error hstored h
  have hok : (walk r.stops (start context options s)).result = .ok () := by
    cases hw : (walk r.stops (start context options s)).result with
    | ok u => rfl
    | error e =>
      rw [walk_tells r.stops _ e hw] at hwalked
      cases hwalked
  obtain ⟨hfit, s', hgrown, hwalk⟩ := walk_succeeded rfl hok
  rw [← r.layout_eq_flatMap] at hgrown
  rw [hwalk] at h ⊢
  obtain ⟨s'', hgrown', hfinish⟩ := finish_succeeded
    (t := { start context options s with
      store := { (start context options s).store with sink := s' } }) rfl h
  have hbody : s'.committed.drop s.length = r.layout := by
    rw [hgrown.committed]
    exact List.drop_left' hs
  rw [hfinish]
  refine ⟨hfit, hgrown.trans ?_⟩
  rw [← hbody]
  exact hgrown'

variable {storage : Bytes} (hfit : LeavesFit Leaf.isEncodable r.stops)

include hfit

omit hr in
/-- A record that finds room in the storage is written to its front. -/
theorem walk_over_storage (context : Context) (options : Mask)
    (hroom : r.layout.length ≤ storage.length) :
    let t := start context options (Sink.overStorage storage)
    let written := { t.store with sink := t.store.sink.extend r.layout }
    (walk r.stops t).state = { t with store := written } ∧ written.body = r.layout := by
  intro t written
  have hreserve : (Sink.overStorage storage).reserve r.layout.length = .ok () :=
    Sink.reserve_fixed_iff.mpr hroom
  have hwrites := writes_walk (e := t.store) hfit
  rw [← r.layout_eq_flatMap] at hwrites
  refine ⟨?_, ?_⟩
  · rw [hwrites t t.store.sink rfl rfl hreserve]
    rfl
  · show ((Sink.overStorage storage).extend r.layout).committed.drop 0 = r.layout
    rw [List.drop_zero, Sink.committed_extend hreserve]
    rfl

/-- A first run over storage that is long enough. -/
theorem run_over_long (context : Context) (h : (sealed options r.layout).length ≤ storage.length) :
    let done := run r (start context options (Sink.overStorage storage))
    done.result = .ok () ∧
      done.state.store.sink = (Sink.overStorage storage).extend (sealed options r.layout) := by
  intro done
  obtain ⟨hstate, hresult⟩ := first_run_passive hr context options (Sink.overStorage storage)
  rw [length_sealed] at h
  have hroom : (Sink.overStorage storage).reserve (r.layout.length + trailerLength options) =
      .ok () := Sink.reserve_fixed_iff.mpr h
  obtain ⟨hwalk, hbody⟩ := walk_over_storage hfit context options
    (show r.layout.length ≤ storage.length by omega)
  rw [hwalk, finish_of_room rfl (Sink.reserve_extend hroom)] at hstate
  refine ⟨?_, ?_⟩
  · rw [hresult, hstate]
    rfl
  · rw [hstate]
    simp only [withTrailer, hbody]
    refine Sink.extend_extend ?_
    rw [length_trailer]
    exact hroom

/-- A first run over storage that is too short, for the record or for its trailer. -/
theorem run_over_short (context : Context) (h : storage.length < (sealed options r.layout).length) :
    let done := run r (start context options (Sink.overStorage storage))
    ∃ e, done.result = .error e ∧
      done.state.store.sink.Overrun storage 0 (sealed options r.layout) e := by
  intro done
  let t := start context options (Sink.overStorage storage)
  obtain ⟨hstate, hresult⟩ := first_run_passive hr context options (Sink.overStorage storage)
  by_cases hlayout : storage.length < r.layout.length
  · have hoverruns := overruns_walk (e := t.store) hfit
    rw [← r.layout_eq_flatMap] at hoverruns
    obtain ⟨e, s, hs, -, hwalk⟩ := hoverruns t storage 0 rfl rfl (Nat.zero_le _) hlayout
    rw [hwalk, finish_of_stored (Option.some_ne_none e)] at hstate
    refine ⟨e, ?_, ?_⟩
    · rw [hresult, hstate]
      rfl
    · rw [hstate]
      exact hs.left _
  · rw [length_sealed] at h
    have hfits : 0 + r.layout.length ≤ storage.length := by omega
    obtain ⟨hwalk, hbody⟩ := walk_over_storage hfit context options
      (Nat.not_lt.mp hlayout)
    obtain ⟨e, s, hs, hfinish⟩ := finish_overruns
      (t := { t with store := { t.store with sink := t.store.sink.extend r.layout } })
      (overwrite storage 0 r.layout) (0 + r.layout.length) rfl rfl
      (by rw [Sink.length_overwrite hfits]; exact hfits)
      (by
        rw [Sink.length_overwrite hfits, length_trailer]
        show storage.length - (0 + r.layout.length) < trailerLength options
        omega)
    rw [hbody] at hs
    rw [hwalk, hfinish] at hstate
    refine ⟨e, ?_, ?_⟩
    · rw [hresult, hstate]
      rfl
    · rw [hstate]
      exact hs.right hfits

end

end Encoder

/-- **Encoding into storage of any size.** If a record encodes at all, it encodes into storage that
is long enough, and the storage holds its bytes and is unchanged behind them. Into shorter storage
comes a front of the bytes, and the error tells how much of the storage was left behind it, which
is unchanged, and that this was too little. -/
theorem Record.encodeInto_outcome {r : Record} (hr : r.isPassive) {context : Context}
    {options : Mask} (storage : Bytes)
    (hok : (run r (Encoder.start context options (Sink.empty none))).result = .ok ()) :
    let whole :=
      (run r (Encoder.start context options (Sink.empty none))).state.store.sink.committed
    let (report, after) := r.encodeInto storage context options
    (report.result = .ok whole.length ↔ whole.length ≤ storage.length) ∧
      (whole.length ≤ storage.length → after = whole ++ storage.drop whole.length) ∧
      (storage.length < whole.length → ∃ requested remaining,
        report.result = .error (.bufferExhausted requested remaining) ∧ remaining < requested ∧
          remaining ≤ storage.length ∧
          after = whole.take (storage.length - remaining) ++
            storage.drop (storage.length - remaining)) := by
  obtain ⟨hfit, hgrown⟩ := Encoder.run_passive_succeeded hr rfl hok
  rw [show (run r (Encoder.start context options (Sink.empty none))).state.store.sink.committed =
    sealed options r.layout from hgrown.committed]
  intro whole
  dsimp only [Record.encodeInto, Report.ofRun]
  by_cases h : whole.length ≤ storage.length
  · obtain ⟨hresult, hsink⟩ := Encoder.run_over_long hr hfit context h
    rw [hresult, hsink]
    refine ⟨iff_of_true ?_ h, fun _ => ?_, fun hlt => absurd h (Nat.not_le.mpr hlt)⟩
    · rw [Sink.length_extend]
      show Except.ok (0 + whole.length) = _
      rw [Nat.zero_add]
    · show overwrite storage 0 whole = _
      rw [Sink.overwrite_eq, List.take_zero, List.nil_append, Nat.zero_add]
  · obtain ⟨e, hresult, hover⟩ := Encoder.run_over_short hr hfit context
      (Nat.not_le.mp h)
    obtain ⟨requested, remaining, rfl, hless, hle, hafter⟩ := hover.storage_eq
    rw [hresult]
    refine ⟨iff_of_false nofun h, fun hle' => absurd hle' h, fun _ => ?_⟩
    exact ⟨requested, remaining, rfl, hless, hle, hafter⟩

/-- A lenient record whose text finds no room, though the number behind it would. -/
theorem Record.encodeInto_outcome_lenient :
    let r := Record.lenient [.leaf "a" .u8 1, .leaf "b" .text "abc", .leaf "c" .u8 2] []
    let storage : Bytes := [9, 9, 9, 9, 9, 9, 9]
    let whole := (run r (Encoder.start .network Options.checksum
      (Sink.empty none))).state.store.sink.committed
    let (report, after) := r.encodeInto storage .network Options.checksum
    storage.length < whole.length ∧ ∃ requested remaining,
      report.result = .error (.bufferExhausted requested remaining) ∧ remaining < requested ∧
        remaining ≤ storage.length ∧
        after = whole.take (storage.length - remaining) ++
          storage.drop (storage.length - remaining) :=
  ⟨by decide, (Record.encodeInto_outcome rfl [9, 9, 9, 9, 9, 9, 9] rfl).2.2 (by decide)⟩

end RecordCodec
