import RecordCodec.Conversion
import RecordCodec.Proofs.Encodable
import RecordCodec.Proofs.Sink.Writes

/-!
# What the key encoder writes

`Record.token` says what the key of a record is; here the encoder meets it. A key encoder has no
trailer, so runs in a row just put one token behind the other. Its border is a part of its memory,
and stays what it was when the encoder was started.

## Main results

* `KeyEncoder.visit_record` — a record that has a key is visited by writing it.
* `KeyEncoder.run_record`, `KeyEncoder.runs` — one run, and runs in a row.
* `Record.result_key` — the key of a record is its token.
-/

namespace RecordCodec

/-- The events of a stop in a key: only blocks have any. -/
def Stop.keyEvents : Stop → List Event
  | .leaf ⟨name, .block _, b⟩ => [.keyed name b.length]
  | .leaf _ | .close => []

namespace KeyEncoder

/-! ### Leaves -/

instance : HoldsSink KeyEncoder where
  sink e := e.sink
  withSink s e := { e with sink := s }
  sink_withSink _ _ := rfl
  withSink_sink _ := rfl
  withSink_withSink _ _ _ := rfl

variable {e : KeyEncoder}

theorem writes_put (data : Bytes) : Act.Writes e (put data) () data [] :=
  Act.writes_append data

theorem writes_putMeasured (name : String) {data : Bytes} (h : data.length < UInt32.size) :
    Act.Writes e (putMeasured name data) () (Hex.encode (bigEndian 4 data.length) ++ data) [] := by
  have hfield : lengthField name data.length = .ok (UInt32.ofNat data.length) :=
    lengthField_eq_ok_iff.mpr ⟨h, rfl⟩
  have hdigits : Act.Writes e (putDigits (bigEndian 4 (UInt32.ofNat data.length).toNat)) ()
      (Hex.encode (bigEndian 4 data.length)) [] := by
    rw [UInt32.toNat_ofNat_of_lt' h]
    exact writes_put _
  exact Act.writes_check.seq
    ((Act.writes_require hfield).bind (hdigits.seq (writes_put data)))

/-- **A leaf that has a form in keys is written as that form.** -/
theorem writes_leaf {l : Leaf} (h : l.isKeyable) :
    Act.Writes e (write l.kind l.name l.value) () (l.kind.token l.value)
      (Stop.keyEvents (.leaf l)) := by
  obtain ⟨name, kind, v⟩ := l
  cases kind with
  | u32 => exact writes_put _
  | u16 => exact writes_put _
  | u8 =>
    have htoken : Kind.token .u8 v = Hex.encode [v] := congrArg Hex.encode (bigEndian_byte v)
    rw [htoken]
    exact writes_put _
  | bool => exact writes_put _
  | fixed => exact writes_put _
  | block flags =>
    simp only [Leaf.isKeyable, Kind.isKeyable, decide_eq_true_iff] at h
    have hwrite := (writes_putMeasured (e := e) name h).seq
      (Act.writes_report (.keyed name v.length))
    rwa [List.append_nil] at hwrite
  | text =>
    simp only [Leaf.isKeyable, Kind.isKeyable, decide_eq_true_iff] at h
    exact writes_putMeasured name h

/-- The border is written, even where it is nothing. -/
theorem writes_putBorder : Act.Writes e putBorder () e.border [] := by
  refine Act.Writes.of_store ?_
  intro s
  by_cases h : e.border = []
  · have hempty : (HoldsSink.withSink s e).border.isEmpty := List.isEmpty_iff.mpr h
    rw [if_pos hempty, h]
    exact Act.writes_check
  · have hsome : ¬(HoldsSink.withSink s e).border.isEmpty := by
      intro hempty
      exact h (List.isEmpty_iff.mp hempty)
    rw [if_neg hsome]
    exact writes_put e.border

/-! ### Records -/

/-- The traversal with further bytes in its sink. -/
def extended (data : Bytes) (t : Traversal KeyEncoder) : Traversal KeyEncoder :=
  { t with store := { t.store with sink := t.store.sink.extend data } }

theorem faithful_put (data : Bytes) : (put data).Faithful :=
  Act.faithful_check.bind fun _ => Act.faithful_store.bind fun _ =>
    (Act.faithful_require _).bind fun _ => Act.faithful_modifyStore _

theorem faithful_putMeasured (name : String) (data : Bytes) : (putMeasured name data).Faithful :=
  Act.faithful_check.bind fun _ => (Act.faithful_require _).bind fun _ =>
    (faithful_put _).bind fun _ => faithful_put data

theorem faithful_write (kind : Kind) (name : String) (v : kind.Value) :
    (write kind name v).Faithful := by
  cases kind with
  | u32 | u16 | u8 | bool | fixed => exact faithful_put _
  | block flags => exact (faithful_putMeasured name _).bind fun _ => Act.faithful_report _
  | text => exact faithful_putMeasured name _

theorem faithful_putBorder : putBorder.Faithful := by
  refine Act.faithful_store.bind fun e => ?_
  by_cases h : e.border.isEmpty
  · rw [if_pos h]
    exact Act.faithful_check
  · rw [if_neg h]
    exact faithful_put e.border

theorem visit_eq_write (kind : Kind) (name : String) (v : kind.Value) :
    (Codec.visit kind name v : Act KeyEncoder kind.Value) =
      write kind name v >>= fun _ => pure v := rfl

instance : Codec.Observing KeyEncoder :=
  .of_acts visit_eq_write faithful_write faithful_putBorder

theorem writes_stop {s : Stop} (h : ∀ l, s = .leaf l → l.isKeyable) :
    Act.Writes e s.perform () (s.token e.border) s.keyEvents := by
  cases s with
  | leaf l =>
    have hleaf := (writes_leaf (e := e) (h l rfl)).seq writes_putBorder
    rw [List.append_nil] at hleaf
    rw [Stop.perform_leaf visit_eq_write]
    exact hleaf
  | close => exact writes_putBorder

/-- A walk writes the tokens of its stops. -/
theorem writes_walk {ss : List Stop} (h : LeavesFit Leaf.isKeyable ss) :
    Act.Writes e (walk ss) () (ss.flatMap (Stop.token e.border)) (ss.flatMap Stop.keyEvents) :=
  walk_writes fun _ hs => writes_stop fun _ => h.of_mem hs

/-- **A record that has a key is visited by writing it.** -/
theorem visit_record {r : Record} (h : r.isKeyable) {t : Traversal KeyEncoder}
    (ht : t.error = none) (hdir : t.direction ≠ .decode)
    (hroom : t.store.sink.reserve (r.token t.store.border).length = .ok ()) :
    r.visit t = ⟨.ok (), r, extended (r.token t.store.border) t,
      r.stops.flatMap Stop.keyEvents⟩ := by
  obtain ⟨hdata, hleaves, -⟩ := Record.isSerial_iff.mp h
  have hwalk : Act.Writes t.store (walk r.stops) () (r.token t.store.border)
      (r.stops.flatMap Stop.keyEvents) := writes_walk hleaves
  rw [Record.visit_eq_walk hdata ht hdir, Visited.ofAct, hwalk t t.store.sink ht rfl hroom]
  rfl

/-- **A run** writes the token of its record. -/
theorem run_record {r : Record} (h : r.isKeyable) {t : Traversal KeyEncoder}
    (ht : t.error = none) (hdir : t.direction ≠ .decode)
    (hroom : t.store.sink.reserve (r.token t.store.border).length = .ok ()) :
    ∃ log, run r t = ⟨.ok (), r, extended (r.token t.store.border) t, log⟩ :=
  ⟨_, run_of_visit ht rfl (visit_record h ht hdir hroom) rfl ht⟩

/-- **Runs in a row** write one token behind the other. -/
theorem runs {rs : List Record} (hrs : ∀ r ∈ rs, r.isKeyable) {t : Traversal KeyEncoder}
    (ht : t.error = none) (hdir : t.direction ≠ .decode)
    (hroom : t.store.sink.reserve (rs.flatMap (Record.token t.store.border)).length = .ok ()) :
    ∃ log, performAll (rs.map .run) t =
      (rs.map (.ran (.ok ())), extended (rs.flatMap (Record.token t.store.border)) t, log) := by
  induction rs generalizing t with
  | nil =>
    refine ⟨[], ?_⟩
    rw [List.flatMap_nil, extended, Sink.extend_nil]
    rfl
  | cons r rs ih =>
    rw [List.flatMap_cons, List.length_append] at hroom
    have hfirst := Sink.reserve_of_le hroom (Nat.le_add_right _ _)
    obtain ⟨log, hrun⟩ := run_record (hrs r List.mem_cons_self) ht hdir hfirst
    obtain ⟨log', hruns⟩ := ih (t := extended (r.token t.store.border) t)
      (fun r' hr' => hrs r' (List.mem_cons_of_mem r hr')) ht hdir (Sink.reserve_extend hroom)
    have hboth : extended (rs.flatMap (Record.token t.store.border))
        (extended (r.token t.store.border) t) =
        extended ((r :: rs).flatMap (Record.token t.store.border)) t := by
      simp only [extended, Sink.extend_extend hroom, List.flatMap_cons]
    refine ⟨log ++ log', ?_⟩
    rw [← hboth]
    exact performAll_run_cons hrun hruns

end KeyEncoder

/-- The bytes of a border. -/
def borderBytes (border : Option String) : Bytes :=
  (border.map utf8).getD []

/-- **The key of a record is its token**, as long as memory can hold it. -/
theorem Record.result_key {r : Record} (h : r.isKeyable) {border : Option String}
    (hroom : (r.token (borderBytes border)).length ≤ maxLength) :
    (r.key border).result = .ok (r.token (borderBytes border)) := by
  have hreserve : (KeyEncoder.start border (Sink.empty none)).store.sink.reserve
      (r.token (borderBytes border)).length = .ok () := Sink.reserve_empty_iff.mpr hroom
  obtain ⟨log, hrun⟩ := KeyEncoder.run_record h (t := KeyEncoder.start border (Sink.empty none))
    rfl nofun hreserve
  rw [Record.key, Report.ofRun, hrun]
  exact congrArg Except.ok (List.nil_append _)

end RecordCodec
