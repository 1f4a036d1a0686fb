import RecordCodec.Proofs.Walk

/-!
# Histories

What a history of steps does is said step by step, so a statement about all histories is an
induction along the list. It goes from the front where the state is what matters, and from the back
where it is the history so far; `performAll_append` serves both.

A run that succeeds has gone well in all of its parts: an error anywhere would have been stored, and
would have been the result. So the success of a run says as much as the success of its visit.

## Main definitions

* `Step.isData` — the step visits data, in a run or outside of one.
* `Reply.succeeded`, `Reply.error?` — the step did not fail; the error that its reply shows.

## Main results

* `performAll_append` — a history in two parts.
* `run_succeeded` — the parts of a run that succeeds.
-/

namespace RecordCodec

/-! ### Steps and replies -/

namespace Step

/-- The step takes a record through the codec. -/
def isRun : Step → Bool
  | .run _ => true
  | .visit _ | .takeError | .fail _ | .rewind => false

/-- The step visits data, and does nothing else. -/
def isData : Step → Bool
  | .run r => r.isData
  | .visit f => f.isData
  | .takeError | .fail _ | .rewind => false

end Step

/-- The step did not fail. -/
def Reply.succeeded : Reply → Bool
  | .ran result _ | .visited result _ | .failed result => result.isOk
  | .took _ | .rewound => true

/-- The error of a result. -/
def errorOf? : Except Error Unit → Option Error
  | .error e => some e
  | .ok () => none

theorem errorOf?_eq_some_iff {result : Except Error Unit} {e : Error} :
    errorOf? result = some e ↔ result = .error e := by
  cases result with
  | ok u => exact iff_of_false nofun nofun
  | error e' => rw [errorOf?, Option.some.injEq, Except.error.injEq]

/-- The error that the reply shows. -/
def Reply.error? : Reply → Option Error
  | .ran result _ | .visited result _ | .failed result => errorOf? result
  | .took e => e
  | .rewound => none

theorem isOk_iff {result : Except Error Unit} : result.isOk ↔ result = .ok () := by
  cases result with
  | ok u => exact iff_of_true rfl rfl
  | error e => constructor <;> rintro ⟨⟩

theorem Reply.succeeded_ran_iff {result : Except Error Unit} {r : Record} :
    (Reply.ran result r).succeeded ↔ result = .ok () :=
  isOk_iff

theorem Reply.succeeded_visited_iff {result : Except Error Unit} {f : Field} :
    (Reply.visited result f).succeeded ↔ result = .ok () :=
  isOk_iff

variable {σ : Type} [Codec σ]

/-! ### Histories in two parts -/

theorem performAll_append (ss ss' : List Step) (t : Traversal σ) :
    performAll (ss ++ ss') t =
      let first := performAll ss t
      let second := performAll ss' first.2.1
      (first.1 ++ second.1, second.2.1, first.2.2 ++ second.2.2) := by
  induction ss generalizing t with
  | nil => rfl
  | cons s ss ih => simp only [List.cons_append, performAll, ih, List.append_assoc]

theorem performAll_concat (ss : List Step) (s : Step) (t : Traversal σ) :
    performAll (ss ++ [s]) t =
      let first := performAll ss t
      let last := s.perform first.2.1
      (first.1 ++ [last.reply], last.state, first.2.2 ++ last.log) := by
  simp only [performAll_append, performAll, List.append_nil]

/-! ### Runs that succeed -/

/-- **A run that succeeds** has begun, visited and ended without an error. The end of a run must not
take an error away. -/
theorem run_succeeded {r : Record} {t : Traversal σ}
    (hsticky : ∀ u : Traversal σ, u.error ≠ none →
      ((Codec.closeRun : Act σ Unit) u).state.error ≠ none)
    (h : (run r t).result = .ok ()) :
    let opened := (Codec.openRun : Act σ Unit) t
    let body := r.visit opened.state
    let closed := (Codec.closeRun : Act σ Unit) body.state
    t.error = none ∧ opened.result = .ok () ∧ body.result = .ok () ∧ closed.state.error = none ∧
      (run r t).value = body.value ∧ (run r t).state = closed.state := by
  intro opened body closed
  cases ht : t.error with
  | some e =>
    rw [run_of_error ht] at h
    cases h
  | none =>
    cases hopen : opened.result with
    | error e =>
      rw [(run_of_unopened ht hopen r).1] at h
      cases h
    | ok u =>
      obtain ⟨hresult, hvalue, hstate⟩ := run_of_opened ht hopen r
      rw [hresult, Traversal.check_eq_ok_iff, hstate] at h
      cases hbody : body.result with
      | error e =>
        obtain ⟨stored, -, hstored⟩ := Act.error_fail (α := Unit) e body.state
        refine absurd h (hsticky _ ?_)
        rw [hbody, settle, hstored]
        exact Option.some_ne_none stored
      | ok v =>
        rw [hbody] at h hstate
        exact ⟨rfl, rfl, rfl, h, hvalue, hstate⟩

end RecordCodec
