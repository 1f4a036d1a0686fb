import RecordCodec.Event

/-!
# Acts: fallible steps of a traversal

An act changes the state of a traversal, gives a value or an error, and reports events. What it did
to the state before it failed stays done, which is why the state stands beside the result and not
inside it: a codec that fails half-way through a field has moved on in its buffer.

The log of an act is its own events only, oldest first, and the log of two acts in a row is one
list after the other. So a trace is read off an act alone, whatever happened before it.

## Main definitions

* `Outcome`, `Act` — what an act leaves, and the acts as a monad.
* `Act.check` — fails with the stored error.
* `Act.fail` — stores an error, unless an earlier one is stored, and fails with the stored one.
* `Act.takeError`, `Act.report`, `Act.modifyStore` — the other primitive acts.
-/

namespace RecordCodec

/-- What an act leaves: its result, the state after it, and the events during it. -/
structure Outcome (σ α : Type) where
  result : Except Error α
  state : Traversal σ
  log : List Event

/-- A step of a traversal by a codec with memory `σ`. -/
def Act (σ α : Type) : Type :=
  Traversal σ → Outcome σ α

namespace Act

variable {σ α β : Type}

/-- Gives a value and does nothing. -/
def done (a : α) : Act σ α := fun t =>
  ⟨.ok a, t, []⟩

/-- One act after another; the second is not begun if the first fails. -/
def andThen (act : Act σ α) (next : α → Act σ β) : Act σ β := fun t =>
  let first := act t
  match first.result with
  | .error e => ⟨.error e, first.state, first.log⟩
  | .ok a =>
    let second := next a first.state
    ⟨second.result, second.state, first.log ++ second.log⟩

instance : Monad (Act σ) where
  pure := done
  bind := andThen

/-- Fails with the stored error, if there is one. -/
def check : Act σ Unit := fun t =>
  ⟨t.check, t, []⟩

/-- Stores an error and reports it, unless an earlier one is stored, and fails with the error that
is stored then. -/
def fail (e : Error) : Act σ α := fun t =>
  match t.error with
  | some stored => ⟨.error stored, t, []⟩
  | none => ⟨.error e, { t with error := some e }, [.failed t.direction e]⟩

/-- Takes the stored error out of the state. -/
def takeError : Act σ (Option Error) := fun t =>
  ⟨.ok t.error, { t with error := none }, []⟩

/-- Reports an event. -/
def report (e : Event) : Act σ Unit := fun t =>
  ⟨.ok (), t, [e]⟩

/-- The state, unchanged. -/
def state : Act σ (Traversal σ) := fun t =>
  ⟨.ok t, t, []⟩

/-- The codec's memory, unchanged. -/
def store : Act σ σ := fun t =>
  ⟨.ok t.store, t, []⟩

/-- Changes the codec's memory. -/
def modifyStore (f : σ → σ) : Act σ Unit := fun t =>
  ⟨.ok (), { t with store := f t.store }, []⟩

/-- Gives the value of a computation that may fail; its error is stored. -/
def require : Except Error α → Act σ α
  | .ok a => done a
  | .error e => fail e

/-! ### Acts in a row -/

theorem bind_apply (act : Act σ α) (next : α → Act σ β) (t : Traversal σ) :
    (act >>= next) t =
      match (act t).result with
      | .error e => ⟨.error e, (act t).state, (act t).log⟩
      | .ok a => ⟨(next a (act t).state).result, (next a (act t).state).state,
          (act t).log ++ (next a (act t).state).log⟩ := rfl

theorem bind_of_error {act : Act σ α} {t : Traversal σ} {e : Error}
    (h : (act t).result = .error e) (next : α → Act σ β) :
    (act >>= next) t = ⟨.error e, (act t).state, (act t).log⟩ := by
  rw [bind_apply, h]

theorem bind_of_ok {act : Act σ α} {t : Traversal σ} {a : α}
    (h : (act t).result = .ok a) (next : α → Act σ β) :
    (act >>= next) t =
      ⟨(next a (act t).state).result, (next a (act t).state).state,
        (act t).log ++ (next a (act t).state).log⟩ := by
  rw [bind_apply, h]

@[simp] theorem pure_apply (a : α) (t : Traversal σ) :
    (pure a : Act σ α) t = ⟨.ok a, t, []⟩ := rfl

instance : LawfulMonad (Act σ) := LawfulMonad.mk' (Act σ)
  (fun act => by
    funext t
    show (act >>= fun a => pure (id a)) t = act t
    rw [bind_apply]
    generalize act t = left
    obtain ⟨result, state, log⟩ := left
    cases result <;> simp)
  (fun a next => by
    funext t
    rw [bind_apply]
    simp)
  (fun act next last => by
    funext t
    rw [bind_apply, bind_apply, bind_apply]
    cases h : (act t).result with
    | error e => rfl
    | ok a =>
      simp only [bind_apply]
      cases h' : (next a (act t).state).result <;> simp)

/-! ### The stored error -/

/-- After a failure, an error is stored, and it is the one that was failed with. -/
theorem error_fail (e : Error) (t : Traversal σ) :
    ∃ stored, ((fail e : Act σ α) t).result = .error stored ∧
      ((fail e : Act σ α) t).state.error = some stored := by
  rw [fail]
  cases h : t.error with
  | none => exact ⟨e, rfl, rfl⟩
  | some stored => exact ⟨stored, rfl, h⟩

end Act

end RecordCodec
