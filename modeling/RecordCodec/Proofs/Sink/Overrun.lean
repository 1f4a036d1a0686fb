import RecordCodec.Proofs.Sink.Writes

/-!
# Writing where there is no room

A sink over fixed storage that has no room for some bytes takes the first of them, as they come, and
refuses at one point. How many it takes depends on how the bytes were cut: a refused write writes
nothing of its own. `Sink.Overrun` leaves this open. It says that what was taken is the front of the
bytes, that the rest of the storage is as it was, and that the error tells the truth about both.

`Act.Overruns` is the counterpart of `Act.Writes`. Of two acts in a row, the first overruns by
itself, or it writes its bytes and the second overruns behind them.

## Main definitions

* `Sink.Overrun` — storage after bytes were written that did not fit.
* `Act.Overruns` — where these bytes do not fit, the act fails, and leaves such storage.

## Main results

* `Sink.Overrun.left`, `Sink.Overrun.right` — the two ways to overrun with two byte strings.
* `Act.Overruns.bind`, `walk_overruns` — two acts in a row, and a walk.
* `Sink.Overrun.storage_eq` — the storage, in full.
-/

namespace RecordCodec

namespace Sink

/-- Bytes were written behind the first `n` bytes of the storage. The sink `s` has a front of them,
and was asked for more room than was left behind it. -/
def Overrun (storage : Bytes) (n : Nat) (data : Bytes) (e : Error) (s : Sink) : Prop :=
  ∃ front back requested, data = front ++ back ∧ n + front.length ≤ storage.length ∧
    storage.length - (n + front.length) < requested ∧
    e = .bufferExhausted requested (storage.length - (n + front.length)) ∧
    s = (fixed storage n).extend front

namespace Overrun

variable {storage data more : Bytes} {n : Nat} {e : Error} {s : Sink}

/-- A write that does not fit is refused as a whole. -/
theorem of_refused (h : n ≤ storage.length) (hdata : storage.length - n < data.length) :
    Overrun storage n data (.bufferExhausted data.length (storage.length - n))
      (fixed storage n) :=
  ⟨[], data, data.length, rfl, h, hdata, rfl, (extend_nil _).symm⟩

/-- The first of two byte strings does not fit. -/
theorem left (h : Overrun storage n data e s) (more : Bytes) :
    Overrun storage n (data ++ more) e s := by
  obtain ⟨front, back, requested, rfl, hfits, hless, rfl, rfl⟩ := h
  exact ⟨front, back ++ more, requested, List.append_assoc _ _ _, hfits, hless, rfl, rfl⟩

/-- The first of two byte strings fits, and the second does not. -/
theorem right (hfits : n + data.length ≤ storage.length)
    (h : Overrun (overwrite storage n data) (n + data.length) more e s) :
    Overrun storage n (data ++ more) e s := by
  obtain ⟨front, back, requested, rfl, hfront, hless, rfl, rfl⟩ := h
  rw [length_overwrite hfits, Nat.add_assoc, ← List.length_append] at hfront hless ⊢
  refine ⟨data ++ front, back, requested, (List.append_assoc _ _ _).symm, hfront, hless, rfl, ?_⟩
  have hroom : (fixed storage n).reserve (data.length + front.length) = .ok () := by
    rw [reserve_fixed_iff, ← List.length_append]
    omega
  exact extend_extend hroom

/-- **What is left of the storage** after an overrun from its beginning. The error tells how many
bytes came in. -/
theorem storage_eq (h : Overrun storage 0 data e s) :
    ∃ requested remaining, e = .bufferExhausted requested remaining ∧ remaining < requested ∧
      remaining ≤ storage.length ∧
      s.storage = data.take (storage.length - remaining) ++
        storage.drop (storage.length - remaining) := by
  obtain ⟨front, back, requested, rfl, hfits, hless, rfl, rfl⟩ := h
  rw [Nat.zero_add] at hfits hless ⊢
  refine ⟨requested, _, rfl, hless, Nat.sub_le _ _, ?_⟩
  rw [Nat.sub_sub_self hfits, List.take_left]
  show overwrite storage 0 front = front ++ storage.drop front.length
  rw [overwrite_eq, List.take_zero, List.nil_append, Nat.zero_add]

end Overrun

end Sink

open HoldsSink

variable {σ α β : Type} [HoldsSink σ]

namespace Act

/-- With a memory that is `m` apart from its sink, and no room for `data` in the storage of the
sink, the act fails, stores its error, and leaves the storage overrun. -/
def Overruns (m : σ) (act : Act σ α) (data : Bytes) : Prop :=
  ∀ (t : Traversal σ) (storage : Bytes) (n : Nat), t.error = none →
    t.store = withSink (.fixed storage n) m → n ≤ storage.length →
    storage.length - n < data.length →
    ∃ e s, s.Overrun storage n data e ∧ (act t).result = .error e ∧
      (act t).state = { t with error := some e, store := withSink s m }

variable {m : σ} {a : α} {data more : Bytes} {log : List Event}

/-- There is room for no bytes everywhere. -/
theorem overruns_nil (act : Act σ α) : Overruns m act [] :=
  fun _ _ _ _ _ _ h => absurd h (Nat.not_lt_zero _)

theorem overruns_append (data : Bytes) : Overruns m (append data) data := by
  intro t storage n ht hm hn hdata
  have hsink : (sink t.store).append data =
      .error (.bufferExhausted data.length (storage.length - n)) := by
    rw [hm, sink_withSink, Sink.append, Sink.reserve, if_pos hdata]
    rfl
  refine ⟨_, _, .of_refused hn hdata, ?_, ?_⟩
  · rw [append_of_refused ht hsink]
  · rw [append_of_refused ht hsink, ← hm]

/-! ### Acts in a row -/

/-- What would come after an act that overruns is not begun. -/
theorem Overruns.ahead {act : Act σ α} (h : Overruns m act data) (next : α → Act σ β) :
    Overruns m (act >>= next) data := by
  intro t storage n ht hm hn hdata
  obtain ⟨e, s, hs, hresult, hstate⟩ := h t storage n ht hm hn hdata
  rw [bind_of_error hresult]
  exact ⟨e, s, hs, rfl, hstate⟩

theorem Overruns.bind {act : Act σ α} {next : α → Act σ β} (h : Overruns m act data)
    (hw : Writes m act a data log) (h' : Overruns m (next a) more) :
    Overruns m (act >>= next) (data ++ more) := by
  intro t storage n ht hm hn hdata
  rw [List.length_append] at hdata
  by_cases hfirst : storage.length - n < data.length
  · obtain ⟨e, s, hs, hresult, hstate⟩ := h.ahead next t storage n ht hm hn hfirst
    exact ⟨e, s, hs.left more, hresult, hstate⟩
  · have hfits : n + data.length ≤ storage.length := by omega
    have hroom : (Sink.fixed storage n).reserve data.length = .ok () := by
      rw [Sink.reserve_fixed_iff]
      omega
    have hact := hw t _ ht hm hroom
    obtain ⟨e, s, hs, hresult, hstate⟩ := h'
      { t with store := withSink ((Sink.fixed storage n).extend data) m }
      (overwrite storage n data) (n + data.length) ht rfl
      (by rw [Sink.length_overwrite hfits]; exact hfits)
      (by rw [Sink.length_overwrite hfits]; omega)
    rw [bind_of_ok (a := a) (by rw [hact])]
    simp only [hact]
    exact ⟨e, s, hs.right hfits, hresult, hstate⟩

/-- An act that writes nothing, and then one that overruns. -/
theorem Overruns.behind {act : Act σ α} {next : α → Act σ β} (h : Overruns m (next a) data)
    (hw : Writes m act a [] log) : Overruns m (act >>= next) data :=
  (overruns_nil act).bind hw h

end Act

/-! ### Walks -/

theorem walk_overruns [Codec σ] {m : σ} {token : Stop → Bytes} {log : Stop → List Event}
    {ss : List Stop} (hw : ∀ s ∈ ss, Act.Writes m s.perform () (token s) (log s))
    (h : ∀ s ∈ ss, Act.Overruns m s.perform (token s)) :
    Act.Overruns m (walk ss) (ss.flatMap token) := by
  induction ss with
  | nil => exact Act.overruns_nil _
  | cons s ss ih =>
    rw [List.flatMap_cons]
    refine (h s List.mem_cons_self).bind (hw s List.mem_cons_self) (ih ?_ ?_)
    · exact fun s' hs' => hw s' (List.mem_cons_of_mem s hs')
    · exact fun s' hs' => h s' (List.mem_cons_of_mem s hs')

end RecordCodec
