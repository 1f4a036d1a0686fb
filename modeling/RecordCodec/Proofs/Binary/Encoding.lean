import RecordCodec.Binary.Encoder
import RecordCodec.Proofs.Binary.Form
import RecordCodec.Proofs.Sink.Writes

/-!
# What the binary encoder writes

`Record.layout` says what the bytes of a record are; the encoder says how they come into a sink.
Here the two meet, first for a leaf and then for a record. The encoder's table of kinds is gone
through twice, once for what it writes where it can, and once to see that it is faithful where it
cannot.

## Main results

* `Encoder.writes_leaf` — a leaf is written as its form.
* `Encoder.visit_record` — a record is visited by writing its form.
-/

namespace RecordCodec

namespace Encoder

/-! ### Leaves -/

instance : HoldsSink Encoder where
  sink e := e.sink
  withSink s e := { e with sink := s }
  sink_withSink _ _ := rfl
  withSink_sink _ := rfl
  withSink_withSink _ _ _ := rfl

variable {e : Encoder}

theorem writes_put (data : Bytes) : Act.Writes e (put data) () data [] :=
  Act.writes_append data

theorem writes_wrote (name : String) (shown : Shown) :
    Act.Writes e (wrote name shown) () [] [.field .written name shown] :=
  Act.writes_report _

/-- Bytes that are written in one piece, and reported. -/
theorem writes_put_wrote (data : Bytes) (name : String) (shown : Shown) :
    Act.Writes e (do put data; wrote name shown) () data [.field .written name shown] := by
  have h := (writes_put (e := e) data).seq (writes_wrote name shown)
  rwa [List.append_nil] at h

theorem writes_putWord (name : String) (v : UInt32) :
    Act.Writes e (putWord name v) () (bigEndian 4 v.toNat) [.field .written name (.u32 v)] :=
  writes_put_wrote _ name _

theorem writes_putMeasured (name : String) {data : Bytes} (h : data.length < UInt32.size) :
    Act.Writes e (putMeasured name data) () (bigEndian 4 data.length ++ data)
      [.field .written name (.u32 (UInt32.ofNat data.length))] := by
  have hfield : lengthField name data.length = .ok (UInt32.ofNat data.length) :=
    lengthField_eq_ok_iff.mpr ⟨h, rfl⟩
  have hbody := (writes_putWord (e := e) name (UInt32.ofNat data.length)).seq (writes_put data)
  rw [UInt32.toNat_ofNat_of_lt' h] at hbody
  exact Act.writes_check.seq ((Act.writes_require hfield).bind hbody)

theorem writes_putTerminated (name : String) {data : Bytes} (h : data.contains 0 = false) :
    Act.Writes e (putTerminated name data) () (data ++ [0]) [] := by
  rw [putTerminated]
  rw [h]
  exact Act.writes_check.seq (writes_put (data ++ [0]))

/-- **A leaf that has a binary form is written as that form.** -/
theorem writes_leaf {l : Leaf} (h : l.isEncodable) :
    Act.Writes e (write l.kind l.name l.value) () l.layout (Stop.events .written (.leaf l)) := by
  obtain ⟨name, kind, v⟩ := l
  cases kind with
  | u32 => exact writes_put_wrote (bigEndian 4 v.toNat) name (.u32 v)
  | u16 => exact writes_put_wrote (bigEndian 2 v.toNat) name (.u16 v)
  | u8 =>
    have hlayout : (⟨name, .u8, v⟩ : Leaf).layout = [v] := bigEndian_byte v
    rw [hlayout]
    exact writes_put_wrote [v] name (.u8 v)
  | bool => exact writes_put_wrote [if v then 1 else 0] name (.bool v)
  | fixed => exact writes_put_wrote v name (.fixed v.length (leading v))
  | block flags =>
    simp only [Leaf.isEncodable, Kind.isEncodable] at h
    simp only [write, Leaf.layout, Kind.layout, Stop.events, Kind.events]
    by_cases hterm : meets flags BlockFlags.terminated
    · rw [if_pos hterm, Bool.not_eq_true'] at h
      simp only [if_pos hterm]
      have hwrite := (writes_putTerminated (e := e) name h).seq
        (writes_wrote name (.block v.length (leading v.toBytes) none))
      rwa [List.append_nil] at hwrite
    · rw [if_neg hterm, decide_eq_true_iff] at h
      simp only [if_neg hterm]
      have hwrite := (writes_putMeasured (e := e) name h).seq
        (writes_wrote name (.block v.length (leading v.toBytes) none))
      rwa [List.append_nil] at hwrite
  | text =>
    simp only [Leaf.isEncodable, Kind.isEncodable, decide_eq_true_iff] at h
    have hwrite := (writes_putMeasured (e := e) name h).seq (writes_wrote name (.text v))
    rwa [List.append_nil] at hwrite

/-! ### Records -/

theorem faithful_put (data : Bytes) : (put data).Faithful :=
  Act.faithful_check.bind fun _ => Act.faithful_store.bind fun _ =>
    (Act.faithful_require _).bind fun _ => Act.faithful_modifyStore _

theorem faithful_put_wrote (data : Bytes) (name : String) (shown : Shown) :
    (do put data; wrote name shown : Act Encoder Unit).Faithful :=
  (faithful_put data).bind fun _ => Act.faithful_report _

theorem faithful_putMeasured (name : String) (data : Bytes) : (putMeasured name data).Faithful :=
  Act.faithful_check.bind fun _ => (Act.faithful_require _).bind fun n =>
    (faithful_put_wrote _ name (.u32 n)).bind fun _ => faithful_put data

theorem faithful_putTerminated (name : String) (data : Bytes) :
    (putTerminated name data).Faithful := by
  refine Act.faithful_check.bind fun _ => ?_
  by_cases h : data.contains 0
  · rw [if_pos h]
    exact Act.faithful_fail _
  · rw [if_neg h]
    exact faithful_put _

theorem faithful_write (kind : Kind) (name : String) (v : kind.Value) :
    (write kind name v).Faithful := by
  cases kind with
  | u32 | u16 | u8 | bool | fixed => exact faithful_put_wrote _ name _
  | block flags =>
    simp only [write]
    by_cases h : meets flags BlockFlags.terminated
    · rw [if_pos h]
      exact (faithful_putTerminated name _).bind fun _ => Act.faithful_report _
    · rw [if_neg h]
      exact (faithful_putMeasured name _).bind fun _ => Act.faithful_report _
  | text => exact (faithful_putMeasured name _).bind fun _ => Act.faithful_report _

theorem visit_eq_write (kind : Kind) (name : String) (v : kind.Value) :
    Codec.visit (σ := Encoder) kind name v = write kind name v >>= fun _ => pure v := rfl

instance : Codec.Observing Encoder :=
  .of_acts visit_eq_write faithful_write (Act.faithful_pure ())

theorem writes_stop {s : Stop} (h : ∀ l, s = .leaf l → l.isEncodable) :
    Act.Writes e s.perform () s.layout (s.events .written) := by
  cases s with
  | leaf l =>
    have hleaf := (writes_leaf (e := e) (h l rfl)).seq (Act.writes_pure ())
    rw [List.append_nil, List.append_nil] at hleaf
    rw [Stop.perform_leaf visit_eq_write]
    exact hleaf
  | close => exact Act.writes_pure ()

/-- A walk writes the forms of its leaves. -/
theorem writes_walk {ss : List Stop} (h : LeavesFit Leaf.isEncodable ss) :
    Act.Writes e (walk ss) () (ss.flatMap Stop.layout) (ss.flatMap (Stop.events .written)) :=
  walk_writes fun _ hs => writes_stop fun _ => h.of_mem hs

/-- **A record that has a binary form is visited by writing that form.** -/
theorem visit_record {r : Record} (h : r.isEncodable) {t : Traversal Encoder}
    (ht : t.error = none) (hdir : t.direction ≠ .decode)
    (hroom : t.store.sink.reserve r.layout.length = .ok ()) :
    r.visit t = ⟨.ok (), r,
      { t with store := { t.store with sink := t.store.sink.extend r.layout } },
      r.stops.flatMap (Stop.events .written)⟩ := by
  obtain ⟨hdata, hleaves, -⟩ := Record.isSerial_iff.mp h
  have hwalk := writes_walk (e := t.store) hleaves
  rw [← r.layout_eq_flatMap] at hwalk
  rw [Record.visit_eq_walk hdata ht hdir, Visited.ofAct, hwalk t t.store.sink ht rfl hroom]
  rfl

end Encoder

end RecordCodec
