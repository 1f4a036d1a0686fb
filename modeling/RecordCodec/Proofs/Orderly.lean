import RecordCodec.Proofs.Advance
import RecordCodec.Proofs.History
import RecordCodec.Proofs.Moments

/-!
# Orderly histories

A decoder can be used in the wrong order: a field can be visited before the trailer of the input was
checked. In an orderly history this does not happen. Data is visited, errors are taken away, the
decoder is sent back; and as long as the trailer is to be checked by a run that succeeds, fields are
visited in runs only.

What a decoder owes its user in orderly histories is `Safe`. Whether a decoder is safe is a question
about its acts, most of which go on (`Codec.Advances`). What is left is how a run begins, since a
run may move the end of what may be read (`Codec.Guards`).

## Main definitions

* `isOrderly` — the history is orderly.
* `Safe` — at all moments, and in all orderly histories, the decoder does what it should.
* `Codec.Guards` — what makes a decoder safe.

## Main results

* `Codec.Guards.step_signals` — the errors that a step stores.
* `Codec.Guards.reaches` — the states along an orderly history.
* `Codec.Guards.safe` — a decoder whose runs begin well is safe.
-/

namespace RecordCodec

/-! ### Steps and replies -/

/-- The step visits data, takes an error away, or goes back. -/
def Step.isPassive : Step → Bool
  | .run r => r.isPassive
  | .visit f => f.isPassive
  | .takeError | .rewind => true
  | .fail _ => false

/-- The step visits a field outside of a run. -/
def Step.isVisit : Step → Bool
  | .visit _ => true
  | .run _ | .takeError | .fail _ | .rewind => false

/-- A run succeeded. -/
def Reply.isRunOk : Reply → Bool
  | .ran result _ => result.isOk
  | .visited _ _ | .took _ | .failed _ | .rewound => false

/-- The result of a step. -/
def Reply.result : Reply → Except Error Unit
  | .ran result _ | .visited result _ | .failed result => result
  | .took _ | .rewound => .ok ()

variable {σ : Type} [Codec σ]

/-- The history is orderly: its steps visit data at most, and where it has to wait for a run to
succeed, no field is visited outside of runs before. -/
def isOrderly : List Step → Bool → Traversal σ → Bool
  | [], _, _ => true
  | step :: steps, waits, t =>
    step.isPassive && !(waits && step.isVisit) &&
      isOrderly steps (waits && !(step.perform t).reply.isRunOk) (step.perform t).state

open HoldsCursor

variable [HoldsCursor σ] {fault : Cursor → Error → Prop} {ready : Traversal σ → Prop}
  {bs : Bytes} {waits : Bool} {start : Traversal σ}

/-- What can be relied on when a decoder of `bs` is started, where leaves are visited in `ready`
states only, and histories wait for a run to succeed if they must. -/
structure Safe (fault : Cursor → Error → Prop) (ready : Traversal σ → Prop) (bs : Bytes)
    (waits : Bool) (start : Traversal σ) : Prop where
  /-- At every moment the cursor is inside of the input. -/
  inside : ∀ t, Codec.Moment ready start t → (cursor t.store).Inside bs
  /-- A visit does not move the cursor back. -/
  forward : ∀ f : Field, f.isPassive → ∀ t : Traversal σ,
    (cursor t.store).offset ≤ (cursor (f.visit t).state.store).offset
  /-- An orderly history goes through moments. -/
  moments : ∀ steps, isOrderly steps waits start →
    Codec.Moment ready start (performAll steps start).2.1
  /-- An error that is new after a step is one that there may be, for the cursor as it is then. -/
  signals : ∀ before step after, isOrderly (before ++ step :: after) waits start →
    let t := (performAll before start).2.1
    let u := (step.perform t).state
    t.error = none → ∀ e, u.error = some e → fault (cursor u.store) e
  /-- A step gives no error but the stored one. -/
  tells : ∀ before step after, isOrderly (before ++ step :: after) waits start →
    let made := step.perform (performAll before start).2.1
    ∀ e, made.reply.result = .error e → made.state.error = some e

/-- What makes a decoder safe: it goes on at leaves, and its runs begin well. -/
structure Codec.Guards (fault : Cursor → Error → Prop) (ready : Traversal σ → Prop) (bs : Bytes)
    (start : Traversal σ) : Prop where
  advances : Codec.Advances σ fault
  /-- Once leaves may be visited, they may be visited always. -/
  keeps : Codec.Keeps ready
  /-- Leaves may be visited in a run that has begun. -/
  opens : ∀ t : Traversal σ, ((Codec.openRun : Act σ Unit) t).result = .ok () →
    ready ((Codec.openRun : Act σ Unit) t).state
  /-- The beginning of a run stores the error that it gives. -/
  opens_tells : (Codec.openRun : Act σ Unit).Tells
  opens_error : ∀ t : Traversal σ, t.error = none →
    ((Codec.openRun : Act σ Unit) t).result = .ok () →
    ((Codec.openRun : Act σ Unit) t).state.error = none
  opens_signals : ∀ t, Codec.Moment ready start t → t.error = none →
    ∀ e, ((Codec.openRun : Act σ Unit) t).state.error = some e →
      fault (cursor ((Codec.openRun : Act σ Unit) t).state.store) e
  /-- The end of a run does nothing. -/
  closes : ∀ t : Traversal σ, ((Codec.closeRun : Act σ Unit) t).state = t
  inside : ∀ t, Codec.Moment ready start t → (cursor t.store).Inside bs

namespace Codec.Guards

/-! ### One step -/

section

variable (h : Codec.Guards fault ready bs start) {t : Traversal σ}

include h

/-- A run leads from moments to moments, and a run that succeeds leaves the decoder ready. -/
theorem run_moment (ht : Codec.Moment ready start t) (r : Record) :
    Codec.Moment ready start (run r t).state ∧
      ((run r t).result = .ok () → ready (run r t).state) := by
  cases herror : t.error with
  | some e =>
    rw [run_of_error herror]
    exact ⟨ht, nofun⟩
  | none =>
    cases hopen : ((Codec.openRun : Act σ Unit) t).result with
    | error e =>
      obtain ⟨hresult, -, hstate⟩ := run_of_unopened herror hopen r
      rw [hresult, hstate]
      exact ⟨ht.openRun, nofun⟩
    | ok u =>
      have hkeeps : Codec.Keeps fun u => Codec.Moment ready start u ∧ ready u :=
        Codec.Moment.keeps h.keeps
      have hbody := Record.visit_keeps hkeeps r _ ⟨ht.openRun, h.opens t hopen⟩
      have hclosed := hkeeps.closeRun _ (settle_keeps hkeeps.ignores
        (r.visit ((Codec.openRun : Act σ Unit) t).state).result _ hbody)
      obtain ⟨-, -, hstate⟩ := run_of_opened herror hopen r
      rw [hstate]
      exact ⟨hclosed.1, fun _ => hclosed.2⟩

/-- A step leads from moments to moments, and leaves the decoder ready if it was, or if the step is
a run that succeeds. -/
theorem step_moment (ht : Codec.Moment ready start t) (step : Step)
    (hvisit : step.isVisit → ready t) :
    Codec.Moment ready start (step.perform t).state ∧
      (ready t ∨ (step.perform t).reply.isRunOk → ready (step.perform t).state) := by
  have hready : ready t → Codec.Moment ready start (step.perform t).state ∧
      ready (step.perform t).state := fun hr =>
    step.perform_keeps (Codec.Moment.keeps h.keeps) ⟨ht, hr⟩
  refine ⟨?_, ?_⟩
  · cases step with
    | run r => exact (h.run_moment ht r).1
    | visit f => exact (hready (hvisit rfl)).1
    | takeError => exact ht.error none
    | fail e => exact Act.keeps_fail (α := Unit) Codec.Moment.ignoresError e t ht
    | rewind => exact ht.rewind
  · rintro (hr | hok)
    · exact (hready hr).2
    · cases step with
      | run r => exact (h.run_moment ht r).2 (isOk_iff.mp hok)
      | visit | takeError | fail | rewind => exact absurd hok Bool.false_ne_true

/-- **The errors that a step stores.** -/
theorem step_signals (ht : Codec.Moment ready start t) {step : Step} (hstep : step.isPassive)
    (hclean : t.error = none) (e : Error) (he : (step.perform t).state.error = some e) :
    fault (cursor (step.perform t).state.store) e := by
  have _ := h.advances.freezing
  cases step with
  | run r =>
    rw [Step.perform] at he ⊢
    cases hopen : ((Codec.openRun : Act σ Unit) t).result with
    | error e' =>
      rw [(run_of_unopened hclean hopen r).2.2] at he ⊢
      exact h.opens_signals t ht hclean e he
    | ok u =>
      obtain ⟨hstate, -⟩ := run_passive (r := r) hstep hclean hopen
      rw [h.closes] at hstate
      rw [hstate] at he ⊢
      exact (Record.visit_leads h.advances.leads hstep _).signals
        (h.opens_error t hclean hopen) e he
  | visit f => exact (Field.visit_leads h.advances.leads hstep t).signals hclean e he
  | takeError => cases he
  | fail => exact absurd hstep Bool.false_ne_true
  | rewind =>
    rw [show (Step.rewind.perform t).state.error = t.error from rfl, hclean] at he
    cases he

/-- A step gives no error but the stored one. -/
theorem step_tells {step : Step} (hstep : step.isPassive) (e : Error)
    (he : (step.perform t).reply.result = .error e) : (step.perform t).state.error = some e := by
  have _ := h.advances.freezing
  cases step with
  | run r => exact run_tells h.opens_tells (r := r) hstep t e he
  | visit f => exact Field.visit_tells (f := f) hstep t e he
  | takeError | rewind => cases he
  | fail => exact absurd hstep Bool.false_ne_true

/-! ### Orderly histories -/

/-- **The states along an orderly history.** They are moments, and a field is visited in ready
states only. -/
theorem reaches (ht : Codec.Moment ready start t) {before : List Step} {step : Step}
    {after : List Step} {waits : Bool} (hwaits : waits = false → ready t)
    (horder : isOrderly (before ++ step :: after) waits t) :
    Codec.Moment ready start (performAll before t).2.1 ∧ step.isPassive ∧
      (step.isVisit → ready (performAll before t).2.1) := by
  induction before generalizing t waits with
  | nil =>
    simp only [List.nil_append, isOrderly, Bool.and_eq_true, Bool.not_eq_true'] at horder
    obtain ⟨⟨hpassive, hvisit⟩, -⟩ := horder
    refine ⟨ht, hpassive, fun hv => hwaits ?_⟩
    rwa [hv, Bool.and_true] at hvisit
  | cons first before ih =>
    simp only [List.cons_append, isOrderly, Bool.and_eq_true, Bool.not_eq_true'] at horder
    obtain ⟨⟨-, hvisit⟩, hrest⟩ := horder
    obtain ⟨hmoment, hready⟩ := h.step_moment ht first fun hv => hwaits (by
      rwa [hv, Bool.and_true] at hvisit)
    refine ih hmoment (fun hdone => hready ?_) hrest
    rw [Bool.and_eq_false_iff, Bool.not_eq_false'] at hdone
    exact hdone.imp hwaits id

/-- An orderly history goes through moments. -/
theorem reaches_end (ht : Codec.Moment ready start t) {steps : List Step} {waits : Bool}
    (hwaits : waits = false → ready t) (horder : isOrderly steps waits t) :
    Codec.Moment ready start (performAll steps t).2.1 := by
  rcases List.eq_nil_or_concat steps with rfl | ⟨before, step, rfl⟩
  · exact ht
  · rw [List.concat_eq_append] at horder ⊢
    obtain ⟨hmoment, -, hvisit⟩ := h.reaches ht hwaits horder
    rw [performAll_concat]
    exact (h.step_moment hmoment step hvisit).1

/-- **A decoder whose runs begin well is safe.** -/
theorem safe {waits : Bool} (hwaits : waits = false → ready start) :
    Safe fault ready bs waits start where
  inside := h.inside
  forward f hf u := (Field.visit_leads h.advances.leads hf u).offset_le
  moments steps horder := h.reaches_end .start hwaits horder
  signals before step after horder := by
    obtain ⟨hmoment, hpassive, -⟩ := h.reaches .start hwaits horder
    exact h.step_signals hmoment hpassive
  tells before step after horder := by
    obtain ⟨-, hpassive, -⟩ := h.reaches .start hwaits horder
    exact h.step_tells hpassive

end

end Codec.Guards

end RecordCodec
