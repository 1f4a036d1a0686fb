import RecordCodec.Step

/-!
# Invariants of a traversal

What the acts of a codec keep, its visits keep, whatever record is visited: nothing is asked of a
record here. It may fail on purpose, raise errors, take them away in the middle of its fields, and
look at the traversal as often as it likes. So an invariant is shown leaf by leaf, and then it holds
at every moment of every history.

Errors come and go without an act of the codec, so an invariant must not depend on the stored one.

## Main definitions

* `Act.Keeps` — the act leads from states with a property to states with it.
* `Codec.Keeps` — all acts of a codec do.

## Main results

* `Record.visit_keeps` — visits of records keep the property.
* `performAll_keeps` — so do histories.
-/

namespace RecordCodec

variable {σ α β : Type} {P : Traversal σ → Prop}

/-! ### Acts -/

/-- The act leads from states with the property to states with it. -/
def Act.Keeps (P : Traversal σ → Prop) (act : Act σ α) : Prop :=
  ∀ t, P t → P (act t).state

/-- The property does not depend on the stored error. -/
def IgnoresError (P : Traversal σ → Prop) : Prop :=
  ∀ t, P t → ∀ e, P { t with error := e }

namespace Act

/-- An act that leaves the state alone. -/
theorem Keeps.of_still {act : Act σ α} (h : ∀ t, (act t).state = t) : act.Keeps P := by
  intro t ht
  rw [h t]
  exact ht

theorem keeps_pure (a : α) : (pure a : Act σ α).Keeps P :=
  .of_still fun _ => rfl

theorem keeps_check : (check : Act σ Unit).Keeps P :=
  .of_still fun _ => rfl

theorem keeps_report (e : Event) : (report e : Act σ Unit).Keeps P :=
  .of_still fun _ => rfl

theorem keeps_fail (hP : IgnoresError P) (e : Error) : (fail e : Act σ α).Keeps P := by
  intro t ht
  rw [fail]
  cases t.error with
  | some stored => exact ht
  | none => exact hP t ht (some e)

theorem Keeps.bind {act : Act σ α} {next : α → Act σ β} (h : act.Keeps P)
    (hnext : ∀ a, (next a).Keeps P) : (act >>= next).Keeps P := by
  intro t ht
  cases ha : (act t).result with
  | error e =>
    rw [bind_of_error ha]
    exact h t ht
  | ok a =>
    rw [bind_of_ok ha]
    exact hnext a _ (h t ht)

end Act

/-- A codec all of whose acts keep a property. -/
structure Codec.Keeps [Codec σ] (P : Traversal σ → Prop) : Prop where
  ignores : IgnoresError P
  visit : ∀ (kind : Kind) (name : String) (v : kind.Value), (Codec.visit kind name v).Keeps P
  close : Codec.close.Keeps P
  openRun : Codec.openRun.Keeps P
  closeRun : Codec.closeRun.Keeps P
  rewind : ∀ t, P t → P { t with store := Codec.rewind t.store }

/-! ### Visits of single parts -/

/-- The visit leads from states with the property to states with it. -/
def VisitKeeps (P : Traversal σ → Prop) (visit : Traversal σ → Visited σ α) : Prop :=
  ∀ t, P t → P (visit t).state

theorem Visited.followedBy_keeps {v : Visited σ α} {act : Act σ Unit} (hv : P v.state)
    (h : act.Keeps P) : P (v.followedBy act).state := by
  rw [followedBy]
  cases v.result with
  | error e => exact hv
  | ok u => exact h _ hv

theorem visitCopies_keeps {item : Traversal σ → Visited σ Record} (h : VisitKeeps P item)
    (n : Nat) : VisitKeeps P (visitCopies item n) := by
  induction n with
  | zero => exact fun t ht => ht
  | succ n ih =>
    intro t ht
    rw [visitCopies]
    cases (item t).result with
    | error e => exact h t ht
    | ok u => exact ih _ (h t ht)

theorem settle_keeps (hP : IgnoresError P) (result : Except Error Unit) :
    (settle result : Act σ Unit).Keeps P := by
  cases result with
  | error e => exact Act.keeps_fail hP e
  | ok u => exact Act.keeps_pure ()

variable [Codec σ]

theorem visitLeaf_keeps (hP : Codec.Keeps P) (kind : Kind) (name : String) (v : kind.Value) :
    VisitKeeps P (visitLeaf kind name v) := by
  intro t ht
  have hseen := hP.visit kind name v t ht
  rw [visitLeaf]
  cases (Codec.visit kind name v t).result with
  | error e => exact hseen
  | ok new => exact Visited.followedBy_keeps hseen hP.close

theorem visitSigned_keeps (hP : Codec.Keeps P) (w : Signed) (name : String) (v : w.Value) :
    VisitKeeps P (visitSigned w name v) := by
  intro t ht
  have hseen := visitLeaf_keeps hP w.carrier name (w.toCarrier v) t ht
  rw [visitSigned]
  cases (visitLeaf w.carrier name (w.toCarrier v) t).result <;> exact hseen

theorem visitNested_keeps (hP : Codec.Keeps P) {fields : Traversal σ → Visited σ Record}
    (h : VisitKeeps P fields) (r : Record) : VisitKeeps P (visitNested fields r) := by
  intro t ht
  rw [visitNested]
  cases t.error with
  | some e => exact ht
  | none => exact Visited.followedBy_keeps (h t ht) hP.close

theorem decodeItems_keeps (hP : Codec.Keeps P) {item : Traversal σ → Visited σ Record}
    (h : VisitKeeps P item) (count : Nat) : VisitKeeps P (decodeItems item count) := by
  intro t ht
  rw [decodeItems]
  cases shortage count t with
  | some left => exact Act.keeps_fail hP.ignores _ t ht
  | none => exact visitCopies_keeps h count t ht

/-! ### Visits of records -/

mutual

theorem Field.visit_keeps (hP : Codec.Keeps P) : ∀ f : Field, VisitKeeps P f.visit
  | .leaf name kind v, t, ht => visitLeaf_keeps hP kind name v t ht
  | .signed name w v, t, ht => visitSigned_keeps hP w name v t ht
  | .nested name body, t, ht => visitNested_keeps hP (Record.visit_keeps hP body) body t ht
  | .sequence name items item, t, ht => by
    have hcount := visitLeaf_keeps hP .u32 name (UInt32.ofNat items.length) t ht
    have hitem := visitNested_keeps hP (Record.visit_keeps hP item) item
    rw [Field.visit]
    cases (visitLeaf .u32 name (UInt32.ofNat items.length) t).result with
    | error e => exact hcount
    | ok u =>
      cases (visitLeaf .u32 name (UInt32.ofNat items.length) t).state.direction with
      | decode => exact decodeItems_keeps hP hitem _ _ hcount
      | encode | inspect => exact visitItems_keeps hP items _ hcount
  | .guarded guard body, t, ht => by
    rw [Field.visit]
    by_cases h : guard.holds t
    · rw [if_pos h]
      exact Record.visit_keeps hP body t ht
    · rw [if_neg h]
      exact ht
  | .failing e, t, ht => Act.keeps_fail (α := Unit) hP.ignores e t ht
  | .raising _, _, ht => ht
  | .recovering _, t, ht => hP.ignores t ht none
  | .watching _, _, ht => ht

/-- **Visits of records** keep what the acts of the codec keep. -/
theorem Record.visit_keeps (hP : Codec.Keeps P) : ∀ r : Record, VisitKeeps P r.visit
  | .strict fields, t, ht => visitFields_keeps hP fields t ht
  | .lenient fields _, t, ht => visitEach_keeps hP fields t ht

theorem visitFields_keeps (hP : Codec.Keeps P) :
    ∀ fs : List Field, VisitKeeps P (visitFields fs)
  | [], _, ht => ht
  | f :: fs, t, ht => by
    have hfirst := Field.visit_keeps hP f t ht
    rw [visitFields]
    cases (f.visit t).result with
    | error e => exact hfirst
    | ok u => exact visitFields_keeps hP fs _ hfirst

theorem visitEach_keeps (hP : Codec.Keeps P) : ∀ fs : List Field, VisitKeeps P (visitEach fs)
  | [], _, ht => ht
  | f :: fs, t, ht => by
    rw [visitEach]
    exact visitEach_keeps hP fs _ (Field.visit_keeps hP f t ht)

theorem visitItems_keeps (hP : Codec.Keeps P) :
    ∀ rs : List Record, VisitKeeps P (visitItems rs)
  | [], _, ht => ht
  | r :: rs, t, ht => by
    have hfirst := visitNested_keeps hP (Record.visit_keeps hP r) r t ht
    rw [visitItems]
    cases (visitNested r.visit r t).result with
    | error e => exact hfirst
    | ok u => exact visitItems_keeps hP rs _ hfirst

end

/-! ### Runs and histories -/

theorem run_keeps (hP : Codec.Keeps P) (r : Record) : VisitKeeps P (run r) := by
  intro t ht
  have hopened := hP.openRun t ht
  rw [run]
  cases t.error with
  | some e => exact ht
  | none =>
    dsimp only
    cases ((Codec.openRun : Act σ Unit) t).result with
    | error e => exact hopened
    | ok u =>
      have hbody := Record.visit_keeps hP r _ hopened
      exact hP.closeRun _ (settle_keeps hP.ignores _ _ hbody)

/-- **One step** of a history keeps the property. -/
theorem Step.perform_keeps (hP : Codec.Keeps P) (step : Step) {t : Traversal σ} (ht : P t) :
    P (step.perform t).state := by
  cases step with
  | run r => exact run_keeps hP r t ht
  | visit f => exact Field.visit_keeps hP f t ht
  | takeError => exact hP.ignores t ht none
  | fail e => exact Act.keeps_fail (α := Unit) hP.ignores e t ht
  | rewind => exact hP.rewind t ht

/-- **Histories** keep the property, whatever their steps are. -/
theorem performAll_keeps (hP : Codec.Keeps P) (steps : List Step) {t : Traversal σ} (ht : P t) :
    P (performAll steps t).2.1 := by
  induction steps generalizing t with
  | nil => exact ht
  | cons step steps ih => exact ih (step.perform_keeps hP ht)

end RecordCodec
