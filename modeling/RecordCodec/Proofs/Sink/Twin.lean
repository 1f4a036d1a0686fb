import RecordCodec.Proofs.Sink.Writes

/-!
# A fixed sink and its growable twin

A sink over storage has a growable twin: it has the same committed bytes, and its limit is the size
of the storage. The two take the same bytes and have room for the same bytes, and they differ in how
they say that there is none. The fixed one says what is left, the growable one what length would
have been needed.

What lies in the storage behind the committed bytes is not a part of the twin. So an act has a twin
only if it never shows bytes that it did not write.

## Main definitions

* `Sink.twin`, `Traversal.twin` — the sink, and a traversal with it in place of the fixed one.
* `Error.twin` — the error in place of a refusal by the fixed one.
* `OverStorage` — a traversal that writes into storage.
* `Act.HasTwin` — from twins, the act leads to twins.

## Main results

* `Sink.append_twin`, `Sink.resize_twin` — the use that an encoder makes of its sink.
* `Act.HasTwin.bind`, `Act.hasTwin_append`, `walk_hasTwin` — acts with twins.
-/

namespace RecordCodec

/-! ### Errors -/

/-- The error in place of a refusal by a fixed sink of which `length` bytes are committed. -/
def Error.twin (length : Nat) : Error → Error
  | .bufferExhausted requested _ => .outOfMemory (length + requested)
  | e => e

/-- Other errors do not depend on the sink. -/
theorem Error.twin_of_ne {e : Error}
    (h : ∀ requested remaining, e ≠ .bufferExhausted requested remaining) (length : Nat) :
    e.twin length = e := by
  cases e with
  | bufferExhausted requested remaining => exact absurd rfl (h requested remaining)
  | _ => rfl

/-! ### Sinks -/

namespace Sink

/-- The growable sink with the same committed bytes, and the storage for its limit. -/
def twin : Sink → Sink
  | .fixed storage length => .growable (storage.take length) (some storage.length)
  | .growable bs limit => .growable bs limit

/-- The sink lies over storage of this size, and its end is inside. -/
def Over (capacity : Nat) (s : Sink) : Prop :=
  ∃ storage length, s = .fixed storage length ∧ storage.length = capacity ∧ length ≤ capacity

@[simp] theorem committed_twin (s : Sink) : s.twin.committed = s.committed := by
  cases s <;> rfl

variable {capacity : Nat} {s : Sink}

theorem Over.length_committed (h : s.Over capacity) : s.committed.length = s.length := by
  obtain ⟨storage, length, rfl, rfl, hin⟩ := h
  exact List.length_take_of_le hin

theorem Over.length_twin (h : s.Over capacity) : s.twin.length = s.length := by
  rw [← h.length_committed, ← committed_twin]
  obtain ⟨storage, length, rfl, -, -⟩ := h
  rfl

/-- **A write** goes well for both, and leaves twins, or it is refused by both. -/
theorem append_twin (h : s.Over capacity) (hcapacity : capacity ≤ maxLength) {data : Bytes}
    (hdata : data.length ≤ maxLength + 1) :
    (∃ s' : Sink, s'.Over capacity ∧ s.append data = .ok s' ∧ s.twin.append data = .ok s'.twin) ∨
      (capacity - s.length < data.length ∧
        s.append data = .error (.bufferExhausted data.length (capacity - s.length)) ∧
        s.twin.append data = .error (.outOfMemory (s.length + data.length))) := by
  have hlength := h.length_twin
  obtain ⟨storage, length, rfl, rfl, hin⟩ := h
  have hcommitted : (storage.take length).length = length := List.length_take_of_le hin
  by_cases hroom : storage.length - length < data.length
  · refine .inr ⟨hroom, ?_, ?_⟩
    · rw [append, reserve, if_pos hroom]
      rfl
    · -- the count of bytes does not overflow
      have hcount : ¬maxCount < length + data.length := by
        have : maxCount = maxLength + (maxLength + 1) := rfl
        omega
      have hlimit : (some storage.length).any (· < length + data.length) := by
        rw [Option.any_some, decide_eq_true_iff]
        omega
      simp only [append, twin, reserve, hcommitted, if_neg hcount, hlimit, Bool.or_true, if_true]
      rfl
  · have hfits : length + data.length ≤ storage.length := by omega
    refine .inl ⟨.fixed (overwrite storage length data) (length + data.length), ?_, ?_, ?_⟩
    · exact ⟨_, _, rfl, length_overwrite hfits, hfits⟩
    · exact append_of_room (reserve_fixed_iff.mpr (by omega))
    · have hreserve : (twin (.fixed storage length)).reserve data.length = .ok () := by
        rw [twin, reserve_growable_iff, hcommitted]
        refine ⟨by omega, ?_⟩
        rintro most hmost
        obtain rfl := Option.mem_some_iff.mp hmost
        exact hfits
      rw [append_of_room hreserve, twin, twin, extend, take_overwrite hin, length_overwrite hfits]

/-- **Going back** leaves twins. -/
theorem resize_twin (h : s.Over capacity) {n : Nat} (hn : n ≤ s.length) :
    (s.resize n).Over capacity ∧ s.twin.resize n = (s.resize n).twin := by
  obtain ⟨storage, length, rfl, rfl, hin⟩ := h
  have hback : n ≤ length := hn
  refine ⟨⟨storage, n, rfl, rfl, by omega⟩, ?_⟩
  have hnone : n - (storage.take length).length = 0 := by
    rw [List.length_take_of_le hin]
    omega
  rw [twin, resize, resize, twin, hnone, List.take_take, Nat.min_eq_left hback,
    List.replicate_zero, List.append_nil]

end Sink

/-! ### Traversals -/

open HoldsSink

variable {σ α β : Type} [HoldsSink σ] {capacity : Nat} {fit : σ → Prop} {t : Traversal σ}

/-- The traversal with the twin of its sink. A refusal that is stored is the twin of the refusal. -/
def Traversal.twin (t : Traversal σ) : Traversal σ :=
  { t with
    error := t.error.map (Error.twin (sink t.store).length)
    store := withSink (sink t.store).twin t.store }

/-- The traversal encodes into storage of this size. A refusal that it has stored is true. -/
structure OverStorage (capacity : Nat) (fit : σ → Prop) (t : Traversal σ) : Prop where
  encodes : t.direction = .encode
  lies : (sink t.store).Over capacity
  honest : ∀ requested remaining, t.error = some (.bufferExhausted requested remaining) →
    remaining = capacity - (sink t.store).length ∧ remaining < requested
  fit : fit t.store

theorem Traversal.error_twin_of_some {e : Error} (ht : t.error = some e) :
    t.twin.error = some (e.twin (sink t.store).length) := by
  rw [twin, ht]
  rfl

theorem Traversal.error_twin_of_none (ht : t.error = none) : t.twin.error = none := by
  rw [twin, ht]
  rfl

theorem Traversal.twin_of_clean (ht : t.error = none) :
    t.twin = { t with store := withSink (sink t.store).twin t.store } := by
  rw [twin, ht]
  rfl

theorem Traversal.check_twin (t : Traversal σ) :
    t.twin.check = t.check.mapError (Error.twin (sink t.store).length) := by
  rw [check, check, twin]
  cases t.error <;> rfl

/-- The second outcome is the twin of the first. -/
structure Outcome.Twins (capacity : Nat) (fit : σ → Prop) (o o' : Outcome σ α) : Prop where
  kept : OverStorage capacity fit o.state
  state : o'.state = o.state.twin
  result : o'.result = o.result.mapError (Error.twin (sink o.state.store).length)

namespace Act

/-- From twins, the act leads to twins. -/
def HasTwin (capacity : Nat) (fit : σ → Prop) (act : Act σ α) : Prop :=
  ∀ t, OverStorage capacity fit t → (act t).Twins capacity fit (act t.twin)

theorem hasTwin_pure (a : α) : HasTwin capacity fit (pure a) :=
  fun _ ht => ⟨ht, rfl, rfl⟩

theorem hasTwin_check : HasTwin capacity fit check :=
  fun t ht => ⟨ht, rfl, t.check_twin⟩

theorem hasTwin_report (e : Event) : HasTwin capacity fit (report e) :=
  fun _ ht => ⟨ht, rfl, rfl⟩

/-- An act may fail of itself, but not in the name of the sink. -/
theorem hasTwin_fail {e : Error}
    (h : ∀ requested remaining, e ≠ .bufferExhausted requested remaining) :
    HasTwin capacity fit (fail e : Act σ α) := by
  intro t ht
  cases herror : t.error with
  | some stored =>
    rw [fail, fail, herror, Traversal.error_twin_of_some herror]
    exact ⟨ht, rfl, rfl⟩
  | none =>
    rw [fail, fail, herror, Traversal.error_twin_of_none herror]
    refine ⟨⟨ht.encodes, ht.lies, ?_, ht.fit⟩, ?_, ?_⟩
    · intro requested remaining hsame
      exact absurd (Option.some.inj hsame) (h requested remaining)
    · rw [Traversal.twin, Traversal.twin, Option.map_some, Error.twin_of_ne h]
    · exact congrArg Except.error (Error.twin_of_ne h _).symm

theorem hasTwin_require {x : Except Error α}
    (h : ∀ requested remaining, x ≠ .error (.bufferExhausted requested remaining)) :
    HasTwin capacity fit (require x) := by
  cases x with
  | ok a => exact hasTwin_pure a
  | error e => exact hasTwin_fail fun n left hsame => h n left (congrArg Except.error hsame)

theorem HasTwin.bind {act : Act σ α} {next : α → Act σ β} (h : act.HasTwin capacity fit)
    (hnext : ∀ a, (next a).HasTwin capacity fit) : (act >>= next).HasTwin capacity fit := by
  intro t ht
  have hact := h t ht
  have hresult := hact.result
  cases ha : (act t).result with
  | error e =>
    rw [ha] at hresult
    rw [bind_of_error ha, bind_of_error hresult]
    exact ⟨hact.kept, hact.state, rfl⟩
  | ok a =>
    rw [ha] at hresult
    have hsecond := hnext a _ hact.kept
    rw [bind_of_ok ha, bind_of_ok hresult, hact.state]
    exact ⟨hsecond.kept, hsecond.state, hsecond.result⟩

/-- An act that looks at a part of the memory that twins have in common. -/
theorem HasTwin.of_store {γ : Type} (look : σ → γ) (next : γ → Act σ α)
    (hlook : ∀ m : σ, look (withSink (sink m).twin m) = look m)
    (h : ∀ m, fit m → (next (look m)).HasTwin capacity fit) :
    (store >>= fun m => next (look m)).HasTwin capacity fit := by
  intro t ht
  have hsecond := h t.store ht.fit t ht
  have hsame : look t.twin.store = look t.store := hlook t.store
  have hfirst : ∀ u : Traversal σ, (store >>= fun m => next (look m)) u = next (look u.store) u :=
    fun _ => rfl
  rw [hfirst, hfirst, hsame]
  exact hsecond

/-- An act that changes what is around the sink. -/
theorem hasTwin_modifyStore {f : σ → σ} (hsink : ∀ m, sink (f m) = sink m)
    (haround : ∀ (s : Sink) (m : σ), f (withSink s m) = withSink s (f m))
    (hfit : ∀ m, fit m → fit (f m)) : (modifyStore f).HasTwin capacity fit := by
  intro t ht
  have hkept : sink (f t.store) = sink t.store := hsink t.store
  refine ⟨⟨ht.encodes, ?_, ?_, hfit _ ht.fit⟩, ?_, rfl⟩
  · show (sink (f t.store)).Over capacity
    rw [hkept]
    exact ht.lies
  · show ∀ requested remaining, t.error = some (.bufferExhausted requested remaining) →
      remaining = capacity - (sink (f t.store)).length ∧ remaining < requested
    rw [hkept]
    exact ht.honest
  · show ({ t.twin with store := f t.twin.store } : Traversal σ) =
      ({ t with store := f t.store } : Traversal σ).twin
    simp only [Traversal.twin, hkept, haround]

/-- **A write** of bytes that memory can hold. -/
theorem hasTwin_append (hcapacity : capacity ≤ maxLength)
    (hfit : ∀ (s : Sink) (m : σ), fit m → fit (withSink s m)) {data : Bytes}
    (hdata : data.length ≤ maxLength + 1) : (append data : Act σ Unit).HasTwin capacity fit := by
  intro t ht
  cases herror : t.error with
  | some e =>
    rw [append_of_error herror, append_of_error (Traversal.error_twin_of_some herror)]
    exact ⟨ht, rfl, rfl⟩
  | none =>
    have htwin := Traversal.twin_of_clean herror
    have hclean := Traversal.error_twin_of_none herror
    have hsink : sink t.twin.store = (sink t.store).twin := sink_withSink _ _
    rcases Sink.append_twin ht.lies hcapacity hdata with
      ⟨s, hover, hok, hok'⟩ | ⟨hless, hrefused, hrefused'⟩
    · rw [append_of_ok herror hok, append_of_ok hclean (by rw [hsink, hok'])]
      refine ⟨⟨ht.encodes, ?_, ?_, hfit _ _ ht.fit⟩, ?_, rfl⟩
      · rwa [sink_withSink]
      · intro requested remaining hsame
        rw [herror] at hsame
        cases hsame
      · rw [Traversal.twin_of_clean (t := { t with store := withSink s t.store }) herror, htwin]
        simp only [sink_withSink, withSink_withSink]
    · rw [append_of_refused herror hrefused,
        append_of_refused hclean (by rw [hsink, hrefused'])]
      refine ⟨⟨ht.encodes, ht.lies, ?_, ht.fit⟩, ?_, rfl⟩
      · intro requested remaining hsame
        cases hsame
        exact ⟨rfl, hless⟩
      · rw [htwin]
        rfl

end Act

/-! ### Walks -/

theorem walk_hasTwin [Codec σ] {ss : List Stop}
    (h : ∀ s ∈ ss, (s.perform : Act σ Unit).HasTwin capacity fit) :
    (walk ss : Act σ Unit).HasTwin capacity fit := by
  induction ss with
  | nil => exact Act.hasTwin_pure ()
  | cons s ss ih =>
    exact (h s List.mem_cons_self).bind fun _ =>
      ih fun s' hs' => h s' (List.mem_cons_of_mem s hs')

end RecordCodec
