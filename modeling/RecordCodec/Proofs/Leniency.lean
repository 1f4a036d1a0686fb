import RecordCodec.Proofs.Passive

/-!
# Lenient visits are walks

For a codec that does not decode, the visit of a record of data is a walk along its stops, result
and all. A lenient record breaks this, since it goes on after a failure and itself never fails. What
remains is the state: after a failure the walk stands still and the visit runs on, but it runs on
frozen, so the two end in the same state.

Hence a run cannot tell a lenient record from a strict one with the same stops
(`run_state_eq_walk`), and whatever is known of walks is known of lenient records too.

## Main results

* `walk_append_state` — a walk in two parts, whether the first part fails or not.
* `Record.visit_state_eq_walk` — the state after a visit.
* `run_state_eq_walk` — the state after a run.
-/

namespace RecordCodec

/-- What follows a visit stands still if the visit failed. -/
theorem Visited.followedBy_state {σ α : Type} {v : Visited σ α} {act : Act σ Unit}
    (hv : ∀ e, v.result = .error e → v.state.error = some e) (h : act.Freezes) :
    (v.followedBy act).state = (act v.state).state := by
  rw [followedBy]
  cases hr : v.result with
  | ok u => rfl
  | error e => exact (h v.state (by rw [hv e hr]; exact Option.some_ne_none e)).symm

variable {σ : Type} [Codec σ]

/-! ### Walks that stand still -/

theorem Stop.perform_freezes [Codec.Freezing σ] (s : Stop) : (s.perform : Act σ Unit).Freezes := by
  cases s with
  | leaf l =>
    exact (Codec.Freezing.visit_freezes l.kind l.name l.value).bind fun _ =>
      Codec.Freezing.close_freezes
  | close => exact Codec.Freezing.close_freezes

theorem Stop.perform_tells [Codec.Freezing σ] (s : Stop) : (s.perform : Act σ Unit).Tells := by
  cases s with
  | leaf l =>
    exact (Codec.Freezing.visit_tells l.kind l.name l.value).bind fun _ =>
      Codec.Freezing.close_tells
  | close => exact Codec.Freezing.close_tells

theorem walk_freezes [Codec.Freezing σ] (ss : List Stop) : (walk ss : Act σ Unit).Freezes := by
  induction ss with
  | nil => exact Act.freezes_pure ()
  | cons s ss ih => exact s.perform_freezes.bind fun _ => ih

theorem walk_tells [Codec.Freezing σ] (ss : List Stop) : (walk ss : Act σ Unit).Tells := by
  induction ss with
  | nil => exact Act.tells_pure ()
  | cons s ss ih => exact s.perform_tells.bind fun _ => ih

/-- **A walk in two parts.** If the first fails, the second stands still. -/
theorem walk_append_state [Codec.Freezing σ] (ss ss' : List Stop) (t : Traversal σ) :
    (walk (ss ++ ss') t).state = (walk ss' (walk ss t).state).state := by
  rw [walk_append]
  cases hw : (walk ss t).result with
  | ok u => rw [Act.bind_of_ok hw]
  | error e =>
    have hstored := walk_tells ss t e hw
    rw [Act.bind_of_error hw]
    exact (walk_freezes ss' _ (by rw [hstored]; exact Option.some_ne_none e)).symm

/-! ### Visits -/

variable {t : Traversal σ}

theorem visitNested_state_eq_walk [Codec.Freezing σ] {r : Record} (hr : r.isPassive)
    (h : (r.visit t).state = (walk r.stops t).state) :
    (visitNested r.visit r t).state = (walk (r.stops ++ [.close]) t).state := by
  rw [visitNested]
  cases ht : t.error with
  | some e => exact (walk_freezes _ t (by rw [ht]; exact Option.some_ne_none e)).symm
  | none =>
    rw [walk_append_state, walk_singleton, ← h]
    exact Visited.followedBy_state (Record.visit_tells hr t) Codec.Freezing.close_freezes

mutual

theorem Field.visit_state_eq_walk [Codec.Observing σ] [Codec.Freezing σ] :
    ∀ {f : Field}, f.isPassive → ∀ {t : Traversal σ}, t.direction ≠ .decode →
    (f.visit t).state = (walk f.stops t).state
  | .leaf name kind v, _, t, _ => by
    rw [Field.visit, visitLeaf_eq_perform, Field.stops, walk_singleton]
    rfl
  | .signed name w v, _, t, _ => by
    rw [Field.visit, visitSigned_eq_perform, Field.stops, walk_singleton]
    rfl
  | .nested name body, h, t, hdir =>
    visitNested_state_eq_walk (r := body) h (Record.visit_state_eq_walk h hdir)
  | .sequence name items item, h, t, hdir => by
    rw [Field.isPassive, Bool.and_eq_true] at h
    let count : List Stop := [.leaf ⟨name, .u32, UInt32.ofNat items.length⟩]
    have hcount : visitLeaf .u32 name (UInt32.ofNat items.length) t =
        Visited.ofAct (walk count) (UInt32.ofNat items.length) t := by
      rw [visitLeaf_eq_perform, walk_singleton]
    have hstops : (Field.sequence name items item).stops = count ++ itemStops items := rfl
    rw [hstops, walk_append_state, Field.visit]
    simp only [hcount, Visited.ofAct]
    cases hc : (walk count t).result with
    | error e =>
      have hstored := walk_tells count t e hc
      exact (walk_freezes _ _ (by rw [hstored]; exact Option.some_ne_none e)).symm
    | ok u =>
      have hdir' := walk_direction_ne count hdir
      cases hd : (walk count t).state.direction with
      | decode => exact absurd hd hdir'
      | encode | inspect => exact visitItems_state_eq_walk h.1 hdir'

/-- **The state after a visit** of a passive record is that after the walk. -/
theorem Record.visit_state_eq_walk [Codec.Observing σ] [Codec.Freezing σ] :
    ∀ {r : Record}, r.isPassive → ∀ {t : Traversal σ}, t.direction ≠ .decode →
    (r.visit t).state = (walk r.stops t).state
  | .strict _, h, _, hdir => visitFields_state_eq_walk h hdir
  | .lenient _ _, h, _, hdir => visitEach_state_eq_walk h hdir

theorem visitFields_state_eq_walk [Codec.Observing σ] [Codec.Freezing σ] :
    ∀ {fs : List Field}, fieldsPassive fs → ∀ {t : Traversal σ}, t.direction ≠ .decode →
    (visitFields fs t).state = (walk (fieldStops fs) t).state
  | [], _, t, _ => rfl
  | f :: fs, h, t, hdir => by
    rw [fieldsPassive, Bool.and_eq_true] at h
    have hfirst := Field.visit_state_eq_walk h.1 hdir
    rw [fieldStops, walk_append_state, ← hfirst, visitFields]
    cases hf : (f.visit t).result with
    | error e =>
      have hstored := Field.visit_tells h.1 t e hf
      exact (walk_freezes _ _ (by rw [hstored]; exact Option.some_ne_none e)).symm
    | ok u =>
      refine visitFields_state_eq_walk h.2 ?_
      rw [hfirst]
      exact walk_direction_ne f.stops hdir

theorem visitEach_state_eq_walk [Codec.Observing σ] [Codec.Freezing σ] :
    ∀ {fs : List Field}, fieldsPassive fs → ∀ {t : Traversal σ}, t.direction ≠ .decode →
    (visitEach fs t).state = (walk (fieldStops fs) t).state
  | [], _, t, _ => rfl
  | f :: fs, h, t, hdir => by
    rw [fieldsPassive, Bool.and_eq_true] at h
    have hfirst := Field.visit_state_eq_walk h.1 hdir
    rw [fieldStops, walk_append_state, ← hfirst, visitEach]
    refine visitEach_state_eq_walk h.2 ?_
    rw [hfirst]
    exact walk_direction_ne f.stops hdir

theorem visitItems_state_eq_walk [Codec.Observing σ] [Codec.Freezing σ] :
    ∀ {rs : List Record}, itemsPassive rs → ∀ {t : Traversal σ}, t.direction ≠ .decode →
    (visitItems rs t).state = (walk (itemStops rs) t).state
  | [], _, t, _ => rfl
  | r :: rs, h, t, hdir => by
    rw [itemsPassive, Bool.and_eq_true] at h
    have hfirst := visitNested_state_eq_walk h.1 (Record.visit_state_eq_walk h.1 hdir)
    rw [itemStops, walk_append_state, ← hfirst, visitItems]
    cases hr : (visitNested r.visit r t).result with
    | error e =>
      have hstored := visitNested_tells (Record.visit_tells h.1) r t e hr
      exact (walk_freezes _ _ (by rw [hstored]; exact Option.some_ne_none e)).symm
    | ok u =>
      refine visitItems_state_eq_walk h.2 ?_
      rw [hfirst]
      exact walk_direction_ne _ hdir

end

/-! ### Runs -/

/-- **The state after a run** of a passive record, strict or lenient: begun, walked, and ended. -/
theorem run_state_eq_walk [Codec.Observing σ] [Codec.Freezing σ] {r : Record} (hr : r.isPassive)
    (ht : t.error = none)
    (hopen : ((Codec.openRun : Act σ Unit) t).result = .ok ())
    (hdir : ((Codec.openRun : Act σ Unit) t).state.direction ≠ .decode) :
    (run r t).state = ((Codec.closeRun : Act σ Unit)
        (walk r.stops ((Codec.openRun : Act σ Unit) t).state).state).state ∧
      (run r t).result = (run r t).state.check := by
  rw [← Record.visit_state_eq_walk hr hdir]
  exact run_passive hr ht hopen

end RecordCodec
