import RecordCodec.Proofs.Sink.Room
import RecordCodec.Proofs.Walk

/-!
# Acts that write

An encoder's memory is a sink with something around it that a visit does not change. Where the sink
has room, each of its acts does one of three simple things: it writes bytes, it reports, or it does
neither. `Act.Writes` says all of it at once, and two acts in a row write the bytes of one behind
the bytes of the other, so what a whole walk writes is computed from its stops.

The room that a statement asks for is room for exactly the bytes in it. That is enough for every
part, because room for all bytes is room for the first ones, and leaves room for the others.

## Main definitions

* `HoldsSink` — a memory with a sink in it.
* `Act.Writes` — the act, given room, gives this value, writes these bytes, reports these events.

## Main results

* `Act.Writes.bind` — two acts in a row.
* `walk_writes` — a walk writes what its stops write.
-/

namespace RecordCodec

/-- A memory with a sink in it. -/
class HoldsSink (σ : Type) where
  sink : σ → Sink
  withSink : Sink → σ → σ
  sink_withSink : ∀ s m, sink (withSink s m) = s
  withSink_sink : ∀ m, withSink (sink m) m = m
  withSink_withSink : ∀ s s' m, withSink s' (withSink s m) = withSink s' m

attribute [simp] HoldsSink.sink_withSink HoldsSink.withSink_sink HoldsSink.withSink_withSink

open HoldsSink

variable {σ α β : Type} [HoldsSink σ]

namespace Act

/-- With a memory that is `m` apart from its sink, and room for `data` in the sink, the act succeeds
with `a`, writes `data`, and reports `log`. -/
def Writes (m : σ) (act : Act σ α) (a : α) (data : Bytes) (log : List Event) : Prop :=
  ∀ (t : Traversal σ) (s : Sink), t.error = none → t.store = withSink s m →
    s.reserve data.length = .ok () →
    act t = ⟨.ok a, { t with store := withSink (s.extend data) m }, log⟩

variable {m : σ}

/-! ### The primitive acts -/

/-- An act that leaves the state alone writes no bytes. -/
theorem Writes.of_still {act : Act σ α} {a : α} {log : List Event}
    (h : ∀ t, t.error = none → act t = ⟨.ok a, t, log⟩) : Writes m act a [] log := by
  intro t s ht hm _
  rw [h t ht, Sink.extend_nil, ← hm]

theorem writes_pure (a : α) : Writes m (pure a) a [] [] :=
  .of_still fun _ _ => rfl

theorem writes_check : Writes m check () [] [] :=
  .of_still fun t ht => by
    show (⟨t.check, t, []⟩ : Outcome σ Unit) = ⟨.ok (), t, []⟩
    rw [Traversal.check_eq_ok_iff.mpr ht]

theorem writes_report (e : Event) : Writes m (report e) () [] [e] :=
  .of_still fun _ _ => rfl

theorem writes_require {x : Except Error α} {a : α} (h : x = .ok a) :
    Writes m (require x) a [] [] := by
  rw [h]
  exact writes_pure a

/-! ### Acts in a row -/

theorem Writes.bind {act : Act σ α} {next : α → Act σ β} {a : α} {b : β} {data more : Bytes}
    {log log' : List Event} (h : Writes m act a data log) (h' : Writes m (next a) b more log') :
    Writes m (act >>= next) b (data ++ more) (log ++ log') := by
  intro t s ht hm hroom
  rw [List.length_append] at hroom
  have hfirst := h t s ht hm (Sink.reserve_of_le hroom (Nat.le_add_right _ _))
  have hsecond := h' { t with store := withSink (s.extend data) m } (s.extend data) ht rfl
    (Sink.reserve_extend hroom)
  rw [bind_of_ok (a := a) (by rw [hfirst])]
  simp only [hfirst, hsecond, Sink.extend_extend hroom]

/-- Two acts in a row, the second of which does not need the value of the first. -/
theorem Writes.seq {act : Act σ α} {next : Act σ β} {a : α} {b : β} {data more : Bytes}
    {log log' : List Event} (h : Writes m act a data log) (h' : Writes m next b more log') :
    Writes m (act >>= fun _ => next) b (data ++ more) (log ++ log') :=
  h.bind h'

/-- An act that depends on the part of the memory around the sink. -/
theorem Writes.of_store {next : σ → Act σ α} {a : α} {data : Bytes} {log : List Event}
    (h : ∀ s, Writes m (next (withSink s m)) a data log) :
    Writes m (store >>= next) a data log := by
  intro t s ht hm hroom
  have hstore : (store : Act σ σ) t = ⟨.ok (withSink s m), t, []⟩ := by rw [← hm]; rfl
  rw [bind_of_ok (a := withSink s m) (by rw [hstore])]
  simp only [hstore, h s t s ht hm hroom, List.nil_append]

/-- Commits bytes to the sink. -/
def append (data : Bytes) : Act σ Unit := do
  check
  let m ← store
  let s ← require ((sink m).append data)
  modifyStore (withSink s)

theorem append_of_error {t : Traversal σ} {e : Error} (ht : t.error = some e) (data : Bytes) :
    append data t = ⟨.error e, t, []⟩ := by
  have hcheck : ((check : Act σ Unit) t).result = .error e := by
    show t.check = .error e
    rw [Traversal.check, ht]
  rw [append, bind_of_error hcheck]
  rfl

theorem append_of_ok {t : Traversal σ} {data : Bytes} {s : Sink} (ht : t.error = none)
    (h : (sink t.store).append data = .ok s) :
    append data t = ⟨.ok (), { t with store := withSink s t.store }, []⟩ := by
  have hcheck : t.check = .ok () := Traversal.check_eq_ok_iff.mpr ht
  simp only [append, bind_apply, check, hcheck, store, h, require, done, modifyStore,
    List.append_nil]

theorem append_of_refused {t : Traversal σ} {data : Bytes} {e : Error} (ht : t.error = none)
    (h : (sink t.store).append data = .error e) :
    append data t = ⟨.error e, { t with error := some e }, [.failed t.direction e]⟩ := by
  have hcheck : t.check = .ok () := Traversal.check_eq_ok_iff.mpr ht
  simp only [append, bind_apply, check, hcheck, store, h, require, fail, ht, List.nil_append]

theorem writes_append (data : Bytes) : Writes m (append data) () data [] := by
  intro t s ht hm hroom
  have hsink : (sink t.store).append data = .ok (s.extend data) := by
    rw [hm, sink_withSink, Sink.append_of_room hroom]
  rw [append_of_ok ht hsink, hm, withSink_withSink]

end Act

/-! ### Walks -/

theorem walk_writes [Codec σ] {m : σ} {token : Stop → Bytes} {log : Stop → List Event}
    {ss : List Stop} (h : ∀ s ∈ ss, Act.Writes m s.perform () (token s) (log s)) :
    Act.Writes m (walk ss) () (ss.flatMap token) (ss.flatMap log) := by
  induction ss with
  | nil => exact Act.writes_pure ()
  | cons s ss ih =>
    rw [List.flatMap_cons, List.flatMap_cons]
    exact (h s List.mem_cons_self).bind (ih fun s' hs' => h s' (List.mem_cons_of_mem s hs'))

end RecordCodec
