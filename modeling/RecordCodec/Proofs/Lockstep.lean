import RecordCodec.Proofs.History

/-!
# Two traversals in step

Two traversals can differ and still answer alike: by what a codec keeps to itself, or by options
that it never asks for. To show that they do, relate their states, show that each act of the codecs
leads from related states to related states and gives the same result, and the rest follows here:
from acts to leaves, from leaves to records, and from records to histories.

A field that looks at the traversal would tell the two apart. So the records are blind ones. They
need not be plain: their fields may fail, and take errors away, and their sequences may have blank
items of any form.

## Main definitions

* `Record.isBlind` — no field looks at the traversal.
* `Act.Lockstep` — two acts that keep states related, and give the same result.
* `Codec.Lockstep` — two codecs all of whose acts do.

## Main results

* `Record.visit_alike` — records are visited alike.
* `performAll_alike` — histories are answered alike.
-/

namespace RecordCodec

/-! ### Records that do not look around -/

mutual

/-- The field does not look at the traversal. -/
def Field.isBlind : Field → Bool
  | .leaf _ _ _ | .signed _ _ _ | .failing _ | .raising _ | .recovering _ => true
  | .nested _ body => body.isBlind
  | .sequence _ items item => itemsBlind items && item.isBlind
  | .guarded _ _ | .watching _ => false

/-- No field of the record looks at the traversal. -/
def Record.isBlind : Record → Bool
  | .strict fields | .lenient fields _ => fieldsBlind fields

/-- None of the fields looks at the traversal. -/
def fieldsBlind : List Field → Bool
  | [] => true
  | f :: fs => f.isBlind && fieldsBlind fs

/-- None of the items looks at the traversal. -/
def itemsBlind : List Record → Bool
  | [] => true
  | r :: rs => r.isBlind && itemsBlind rs

end

mutual

theorem Field.isBlind_of_isPlain : ∀ {f : Field}, f.isPlain → f.isBlind
  | .leaf _ _ _, _ => rfl
  | .signed _ _ _, _ => rfl
  | .nested _ _, h => Record.isBlind_of_isPlain h
  | .sequence name items item, h => by
    rw [Field.isPlain, Bool.and_eq_true] at h
    rw [Field.isBlind, itemsBlind_of_itemsPlain h.2, Record.isBlind_of_isPlain h.1]
    rfl

/-- Plain records are blind. -/
theorem Record.isBlind_of_isPlain : ∀ {r : Record}, r.isPlain → r.isBlind
  | .strict _, h => fieldsBlind_of_fieldsPlain h

theorem fieldsBlind_of_fieldsPlain : ∀ {fs : List Field}, fieldsPlain fs → fieldsBlind fs
  | [], _ => rfl
  | f :: fs, h => by
    rw [fieldsPlain, Bool.and_eq_true] at h
    rw [fieldsBlind, Field.isBlind_of_isPlain h.1, fieldsBlind_of_fieldsPlain h.2]
    rfl

theorem itemsBlind_of_itemsPlain {item : Record} :
    ∀ {rs : List Record}, itemsPlain item rs → itemsBlind rs
  | [], _ => rfl
  | r :: rs, h => by
    rw [itemsPlain, Bool.and_eq_true, Bool.and_eq_true] at h
    rw [itemsBlind, Record.isBlind_of_isPlain h.1.1, itemsBlind_of_itemsPlain h.2]
    rfl

end

/-- The step does not look at the traversal. -/
def Step.isBlind : Step → Bool
  | .run r => r.isBlind
  | .visit f => f.isBlind
  | .takeError | .fail _ | .rewind => true

/-! ### Acts in step -/

variable {σ τ α β : Type} {R : Traversal σ → Traversal τ → Prop}

/-- The two acts gave the same result, and related states. -/
structure Outcome.Match (R : Traversal σ → Traversal τ → Prop) (o : Outcome σ α)
    (o' : Outcome τ α) : Prop where
  result : o'.result = o.result
  state : R o.state o'.state

/-- The two acts give the same result, and keep states related. -/
def Act.Lockstep (R : Traversal σ → Traversal τ → Prop) (act : Act σ α) (act' : Act τ α) : Prop :=
  ∀ t u, R t u → (act t).Match R (act' u)

/-- Related states store the same error, in whatever state they are, and flow the same way. -/
structure Steady (R : Traversal σ → Traversal τ → Prop) : Prop where
  direction : ∀ {t u}, R t u → u.direction = t.direction
  error : ∀ {t u}, R t u → u.error = t.error
  setError : ∀ {t u}, R t u → ∀ e, R { t with error := e } { u with error := e }

namespace Act

theorem lockstep_pure (a : α) : Lockstep R (pure a) (pure a) :=
  fun _ _ h => ⟨rfl, h⟩

theorem lockstep_report (e : Event) : Lockstep R (report e) (report e) :=
  fun _ _ h => ⟨rfl, h⟩

theorem lockstep_check (hR : Steady R) : Lockstep R check check := by
  intro t u h
  refine ⟨?_, h⟩
  show u.check = t.check
  rw [Traversal.check, hR.error h, Traversal.check]

theorem lockstep_fail (hR : Steady R) (e : Error) :
    Lockstep R (fail e : Act σ α) (fail e : Act τ α) := by
  intro t u h
  rw [fail, fail, hR.error h]
  cases t.error with
  | none => exact ⟨rfl, hR.setError h (some e)⟩
  | some stored => exact ⟨rfl, h⟩

theorem Lockstep.bind {act : Act σ α} {act' : Act τ α} {next : α → Act σ β}
    {next' : α → Act τ β} (h : Lockstep R act act') (h' : ∀ a, Lockstep R (next a) (next' a)) :
    Lockstep R (act >>= next) (act' >>= next') := by
  intro t u htu
  have first := h t u htu
  cases ha : (act t).result with
  | error e =>
    rw [bind_of_error ha, bind_of_error (first.result.trans ha)]
    exact ⟨rfl, first.state⟩
  | ok a =>
    have second := h' a _ _ first.state
    rw [bind_of_ok ha, bind_of_ok (first.result.trans ha)]
    exact ⟨second.result, second.state⟩

end Act

/-- Two codecs whose acts keep states related, and give the same results. -/
structure Codec.Lockstep [Codec σ] [Codec τ] (R : Traversal σ → Traversal τ → Prop) : Prop
    extends Steady R where
  unread : ∀ {t u}, R t u → Codec.unread u.store = Codec.unread t.store
  rewind : ∀ {t u}, R t u →
    R { t with store := Codec.rewind t.store } { u with store := Codec.rewind u.store }
  visit : ∀ (kind : Kind) (name : String) (v : kind.Value),
    Act.Lockstep R (Codec.visit kind name v) (Codec.visit kind name v)
  close : Act.Lockstep R Codec.close Codec.close
  openRun : Act.Lockstep R Codec.openRun Codec.openRun
  closeRun : Act.Lockstep R Codec.closeRun Codec.closeRun

/-! ### Visits in step -/

/-- The two visits gave the same result and value, and related states. -/
structure Visited.Match (R : Traversal σ → Traversal τ → Prop) (v : Visited σ α)
    (v' : Visited τ α) : Prop where
  result : v'.result = v.result
  value : v'.value = v.value
  state : R v.state v'.state

/-- The two visits give the same result and value, and keep states related. -/
def VisitsAlike (R : Traversal σ → Traversal τ → Prop) (visit : Traversal σ → Visited σ α)
    (visit' : Traversal τ → Visited τ α) : Prop :=
  ∀ t u, R t u → (visit t).Match R (visit' u)

namespace Visited.Match

variable {v : Visited σ α} {v' : Visited τ α}

theorem map (h : v.Match R v') (f : α → β) : (v.map f).Match R (v'.map f) :=
  ⟨h.result, congrArg f h.value, h.state⟩

theorem followedBy {act : Act σ Unit} {act' : Act τ Unit} (h : v.Match R v')
    (hact : Act.Lockstep R act act') : (v.followedBy act).Match R (v'.followedBy act') := by
  rw [Visited.followedBy, Visited.followedBy, h.result]
  cases v.result with
  | error e => exact h
  | ok u =>
    have after := hact _ _ h.state
    exact ⟨after.result, h.value, after.state⟩

end Visited.Match

theorem visitsAlike_ofAct {act : Act σ Unit} {act' : Act τ Unit} (h : Act.Lockstep R act act')
    (a : α) : VisitsAlike R (Visited.ofAct act a) (Visited.ofAct act' a) := by
  intro t u htu
  have after := h t u htu
  exact ⟨after.result, rfl, after.state⟩

/-! ### Visits of single parts -/

theorem lockstep_settle (hR : Steady R) (result : Except Error Unit) :
    Act.Lockstep R (settle result) (settle result) := by
  cases result with
  | error e => exact Act.lockstep_fail hR e
  | ok _ => exact Act.lockstep_pure ()

theorem visitCopies_alike {item : Traversal σ → Visited σ Record}
    {item' : Traversal τ → Visited τ Record} (h : VisitsAlike R item item') (n : Nat) :
    VisitsAlike R (visitCopies item n) (visitCopies item' n) := by
  induction n with
  | zero => exact fun t u htu => ⟨rfl, rfl, htu⟩
  | succ n ih =>
    intro t u htu
    have first := h t u htu
    rw [visitCopies, visitCopies]
    simp only [first.result]
    cases (item t).result with
    | error e => exact ⟨rfl, rfl, first.state⟩
    | ok _ =>
      have others := ih _ _ first.state
      exact ⟨others.result, by simp only [first.value, others.value], others.state⟩

variable [Codec σ] [Codec τ]

theorem visitLeaf_alike (hR : Codec.Lockstep R) (kind : Kind) (name : String) (v : kind.Value) :
    VisitsAlike R (visitLeaf kind name v) (visitLeaf kind name v) := by
  intro t u htu
  have seen := hR.visit kind name v t u htu
  rw [visitLeaf, visitLeaf]
  simp only [seen.result]
  cases (Codec.visit kind name v t).result with
  | error e => exact ⟨rfl, rfl, seen.state⟩
  | ok new => exact Visited.Match.followedBy ⟨rfl, rfl, seen.state⟩ hR.close

theorem visitSigned_alike (hR : Codec.Lockstep R) (w : Signed) (name : String) (v : w.Value) :
    VisitsAlike R (visitSigned w name v) (visitSigned w name v) := by
  intro t u htu
  have seen := visitLeaf_alike hR w.carrier name (w.toCarrier v) t u htu
  rw [visitSigned, visitSigned]
  simp only [seen.result, seen.value]
  cases (visitLeaf w.carrier name (w.toCarrier v) t).result with
  | error e => exact ⟨rfl, rfl, seen.state⟩
  | ok _ => exact ⟨rfl, rfl, seen.state⟩

theorem visitNested_alike (hR : Codec.Lockstep R) {fields : Traversal σ → Visited σ Record}
    {fields' : Traversal τ → Visited τ Record} (h : VisitsAlike R fields fields') (r : Record) :
    VisitsAlike R (visitNested fields r) (visitNested fields' r) := by
  intro t u htu
  rw [visitNested, visitNested, hR.error htu]
  cases t.error with
  | some e => exact ⟨rfl, rfl, htu⟩
  | none => exact (h t u htu).followedBy hR.close

theorem decodeItems_alike (hR : Codec.Lockstep R) {item : Traversal σ → Visited σ Record}
    {item' : Traversal τ → Visited τ Record} (h : VisitsAlike R item item') (count : Nat) :
    VisitsAlike R (decodeItems item count) (decodeItems item' count) := by
  intro t u htu
  have hshortage : shortage count u = shortage count t := by
    rw [shortage, hR.unread htu, shortage]
  rw [decodeItems, decodeItems, hshortage]
  cases shortage count t with
  | some left => exact visitsAlike_ofAct (Act.lockstep_fail hR.toSteady _) [] t u htu
  | none => exact visitCopies_alike h count t u htu

/-! ### Visits of records -/

mutual

theorem Field.visit_alike (hR : Codec.Lockstep R) : ∀ {f : Field}, f.isBlind →
    VisitsAlike R f.visit f.visit
  | .leaf name kind v, _, t, u, htu => (visitLeaf_alike hR kind name v t u htu).map _
  | .signed name w v, _, t, u, htu => (visitSigned_alike hR w name v t u htu).map _
  | .nested name body, h, t, u, htu =>
    (visitNested_alike hR (Record.visit_alike hR h) body t u htu).map _
  | .sequence name items item, h, t, u, htu => by
    rw [Field.isBlind, Bool.and_eq_true] at h
    have count := visitLeaf_alike hR .u32 name (UInt32.ofNat items.length) t u htu
    rw [Field.visit, Field.visit]
    simp only [count.result, count.value, hR.direction count.state]
    cases (visitLeaf .u32 name (UInt32.ofNat items.length) t).result with
    | error e => exact ⟨rfl, rfl, count.state⟩
    | ok _ =>
      cases (visitLeaf .u32 name (UInt32.ofNat items.length) t).state.direction with
      | decode =>
        have hitem := visitNested_alike hR (Record.visit_alike hR h.2) item
        have rest := decodeItems_alike hR hitem
          (visitLeaf .u32 name (UInt32.ofNat items.length) t).value.toNat _ _ count.state
        exact ⟨rest.result, congrArg (Field.sequence name · item) rest.value, rest.state⟩
      | encode | inspect =>
        have rest := visitItems_alike hR h.1 _ _ count.state
        exact ⟨rest.result, congrArg (Field.sequence name · item) rest.value, rest.state⟩
  | .failing e, _, t, u, htu => visitsAlike_ofAct (Act.lockstep_fail hR.toSteady e) _ t u htu
  | .raising e, _, t, u, htu => ⟨rfl, rfl, htu⟩
  | .recovering taken, _, t, u, htu => by
    rw [Field.visit, Field.visit, hR.error htu]
    exact ⟨rfl, rfl, hR.setError htu none⟩

/-- **Records are visited alike.** -/
theorem Record.visit_alike (hR : Codec.Lockstep R) : ∀ {r : Record}, r.isBlind →
    VisitsAlike R r.visit r.visit
  | .strict fields, h, t, u, htu => (visitFields_alike hR h t u htu).map _
  | .lenient fields results, h, t, u, htu => by
    rw [Record.visit, Record.visit]
    exact (visitEach_alike hR h t u htu).map _

theorem visitFields_alike (hR : Codec.Lockstep R) : ∀ {fs : List Field}, fieldsBlind fs →
    VisitsAlike R (visitFields fs) (visitFields fs)
  | [], _, t, u, htu => ⟨rfl, rfl, htu⟩
  | f :: fs, h, t, u, htu => by
    rw [fieldsBlind, Bool.and_eq_true] at h
    have first := Field.visit_alike hR h.1 t u htu
    rw [visitFields, visitFields]
    simp only [first.result, first.value]
    cases (f.visit t).result with
    | error e => exact ⟨rfl, rfl, first.state⟩
    | ok _ =>
      have others := visitFields_alike hR h.2 _ _ first.state
      exact ⟨others.result, congrArg (_ :: ·) others.value, others.state⟩

theorem visitEach_alike (hR : Codec.Lockstep R) : ∀ {fs : List Field}, fieldsBlind fs →
    VisitsAlike R (visitEach fs) (visitEach fs)
  | [], _, t, u, htu => ⟨rfl, rfl, htu⟩
  | f :: fs, h, t, u, htu => by
    rw [fieldsBlind, Bool.and_eq_true] at h
    have first := Field.visit_alike hR h.1 t u htu
    have others := visitEach_alike hR h.2 _ _ first.state
    rw [visitEach, visitEach]
    exact ⟨rfl, by simp only [first.result, first.value, others.value], others.state⟩

theorem visitItems_alike (hR : Codec.Lockstep R) : ∀ {rs : List Record}, itemsBlind rs →
    VisitsAlike R (visitItems rs) (visitItems rs)
  | [], _, t, u, htu => ⟨rfl, rfl, htu⟩
  | r :: rs, h, t, u, htu => by
    rw [itemsBlind, Bool.and_eq_true] at h
    have first := visitNested_alike hR (Record.visit_alike hR h.1) r t u htu
    rw [visitItems, visitItems]
    simp only [first.result, first.value]
    cases (visitNested r.visit r t).result with
    | error e => exact ⟨rfl, rfl, first.state⟩
    | ok _ =>
      have others := visitItems_alike hR h.2 _ _ first.state
      exact ⟨others.result, congrArg (_ :: ·) others.value, others.state⟩

end

/-! ### Runs and histories -/

/-- A run of two traversals that need not be in step before it, but are once it has begun. -/
theorem run_match_of_opened (hR : Codec.Lockstep R) {r : Record} (hr : r.isBlind)
    {t : Traversal σ} {u : Traversal τ} (ht : t.error = none) (hu : u.error = none)
    (hopen : ((Codec.openRun : Act σ Unit) t).Match R ((Codec.openRun : Act τ Unit) u)) :
    (run r t).Match R (run r u) := by
  rw [run, run, ht, hu]
  simp only [hopen.result]
  cases ((Codec.openRun : Act σ Unit) t).result with
  | error e => exact ⟨rfl, rfl, hopen.state⟩
  | ok _ =>
    have body := Record.visit_alike hR hr _ _ hopen.state
    have settled := lockstep_settle hR.toSteady
      (r.visit ((Codec.openRun : Act σ Unit) t).state).result _ _ body.state
    have closed := hR.closeRun _ _ settled.state
    simp only [body.result]
    exact ⟨(Act.lockstep_check hR.toSteady _ _ closed.state).result, body.value, closed.state⟩

theorem run_alike (hR : Codec.Lockstep R) {r : Record} (hr : r.isBlind) :
    VisitsAlike R (run r) (run r) := by
  intro t u htu
  cases ht : t.error with
  | some e =>
    rw [run_of_error ht, run_of_error ((hR.error htu).trans ht)]
    exact ⟨rfl, rfl, htu⟩
  | none =>
    exact run_match_of_opened hR hr ht ((hR.error htu).trans ht) (hR.openRun t u htu)

/-- **One step** is answered alike. -/
theorem Step.perform_alike (hR : Codec.Lockstep R) {step : Step} (hstep : step.isBlind)
    {t : Traversal σ} {u : Traversal τ} (htu : R t u) :
    (step.perform u).reply = (step.perform t).reply ∧
      R (step.perform t).state (step.perform u).state := by
  cases step with
  | run r =>
    have done := run_alike hR hstep t u htu
    exact ⟨by simp only [Step.perform, done.result, done.value], done.state⟩
  | visit f =>
    have done := Field.visit_alike hR hstep t u htu
    exact ⟨by simp only [Step.perform, done.result, done.value], done.state⟩
  | takeError => exact ⟨congrArg Reply.took (hR.error htu), hR.setError htu none⟩
  | fail e =>
    have done := Act.lockstep_fail (α := Unit) hR.toSteady e t u htu
    exact ⟨congrArg Reply.failed done.result, done.state⟩
  | rewind => exact ⟨rfl, hR.rewind htu⟩

/-- **Histories are answered alike.** -/
theorem performAll_alike (hR : Codec.Lockstep R) {steps : List Step}
    (hsteps : ∀ step ∈ steps, step.isBlind) {t : Traversal σ} {u : Traversal τ} (htu : R t u) :
    (performAll steps u).1 = (performAll steps t).1 ∧
      R (performAll steps t).2.1 (performAll steps u).2.1 := by
  induction steps generalizing t u with
  | nil => exact ⟨rfl, htu⟩
  | cons step steps ih =>
    obtain ⟨hreply, hnext⟩ := Step.perform_alike hR (hsteps step List.mem_cons_self) htu
    obtain ⟨hreplies, hlast⟩ := ih (fun s hs => hsteps s (List.mem_cons_of_mem step hs)) hnext
    exact ⟨by simp only [performAll, hreply, hreplies], hlast⟩

end RecordCodec
