import RecordCodec.Proofs.Encodable
import RecordCodec.Proofs.Faithful
import RecordCodec.Step

/-!
# A visit is a walk along the stops

A codec that only looks at values does the same at every leaf of one kind, name and value, wherever
the leaf stands. So for such a codec the tree of a record of data does not matter, only its
itinerary: visiting the record is to perform its stops one after another, and to leave the record
alone.

This takes every question about what an encoder does with a tree to a question about a list, whose
answer is an induction on the list and one lemma for each kind of leaf.

## Main definitions

* `Stop.perform`, `walk` — what a codec does at a stop, and at stops in a row.
* `Codec.Lawful` — the codec's acts are faithful.
* `Codec.Observing` — moreover, it gives back each value that it handles.

## Main results

* `Record.visit_eq_walk` — for an observing codec that does not decode, a visit is a walk.
-/

namespace RecordCodec

/-- What follows an act that leaves a value alone leaves it alone too. -/
theorem Visited.ofAct_bind {σ α : Type} (act next : Act σ Unit) (a : α) (t : Traversal σ) :
    Visited.ofAct (act >>= fun _ => next) a t = (Visited.ofAct act a t).followedBy next := by
  cases h : (act t).result with
  | error e => simp only [ofAct, followedBy, h, Act.bind_of_error h]
  | ok u => simp only [ofAct, followedBy, h, Act.bind_of_ok h]

variable {σ : Type} [Codec σ]

/-! ### Walks -/

/-- What a codec does at a stop. -/
def Stop.perform : Stop → Act σ Unit
  | .leaf l => do
    let _ ← Codec.visit l.kind l.name l.value
    Codec.close
  | .close => Codec.close

/-- Performs stops one after another, up to the first that fails. -/
def walk : List Stop → Act σ Unit
  | [] => pure ()
  | s :: ss => do
    s.perform
    walk ss

theorem walk_append (ss ss' : List Stop) :
    (walk (ss ++ ss') : Act σ Unit) = walk ss >>= fun _ => walk ss' := by
  induction ss with
  | nil => exact (pure_bind () fun _ => walk ss').symm
  | cons s ss ih =>
    have hcons : (walk (s :: (ss ++ ss')) : Act σ Unit) =
        s.perform >>= fun _ => walk (ss ++ ss') := rfl
    rw [List.cons_append, hcons, ih, walk, bind_assoc]

/-- Two walks in a row, as the visit of a list is defined. -/
theorem ofAct_walk_append {α : Type} (a : α) (ss ss' : List Stop) (t : Traversal σ) :
    Visited.ofAct (walk (ss ++ ss')) a t =
      match (walk ss t).result with
      | .error e => ⟨.error e, a, (walk ss t).state, (walk ss t).log⟩
      | .ok () =>
        let second := walk ss' (walk ss t).state
        ⟨second.result, a, second.state, (walk ss t).log ++ second.log⟩ := by
  rw [Visited.ofAct, walk_append, Act.bind_apply]
  cases (walk ss t).result <;> rfl

theorem walk_singleton (s : Stop) : (walk [s] : Act σ Unit) = s.perform :=
  bind_pure s.perform

/-! ### Laws of a codec -/

/-- A codec whose acts on leaves and records are faithful. -/
class Codec.Lawful (σ : Type) [Codec σ] : Prop where
  visit_faithful : ∀ kind name (v : kind.Value), (Codec.visit (σ := σ) kind name v).Faithful
  close_faithful : (Codec.close : Act σ Unit).Faithful

/-- A codec that looks at values and changes none. -/
class Codec.Observing (σ : Type) [Codec σ] : Prop extends Codec.Lawful σ where
  visit_keeps : ∀ kind name (v w : kind.Value) (t : Traversal σ),
    (Codec.visit kind name v t).result = .ok w → w = v

/-- A codec whose visit of a leaf is an act, and then the value, is observing. -/
theorem Codec.Observing.of_acts {act : (k : Kind) → String → k.Value → Act σ Unit}
    (hvisit : ∀ k name v, Codec.visit k name v = act k name v >>= fun _ => pure v)
    (hact : ∀ k name v, (act k name v).Faithful)
    (hclose : (Codec.close : Act σ Unit).Faithful) : Codec.Observing σ where
  visit_faithful k name v := by
    rw [hvisit]
    exact (hact k name v).bind fun _ => Act.faithful_pure v
  close_faithful := hclose
  visit_keeps k name v w t h := by
    rw [hvisit] at h
    cases ha : (act k name v t).result with
    | error e =>
      rw [Act.bind_of_error ha] at h
      exact absurd h nofun
    | ok u =>
      rw [Act.bind_of_ok ha] at h
      exact (Except.ok.inj h).symm

/-- At a leaf, such a codec does its act and closes. -/
theorem Stop.perform_leaf {act : (k : Kind) → String → k.Value → Act σ Unit}
    (hvisit : ∀ k name v, Codec.visit k name v = act k name v >>= fun _ => pure v) (l : Leaf) :
    (Stop.leaf l).perform = act l.kind l.name l.value >>= fun _ => Codec.close := by
  rw [Stop.perform, hvisit, bind_assoc]
  simp only [pure_bind]

theorem Stop.perform_faithful [Codec.Lawful σ] (s : Stop) :
    (s.perform : Act σ Unit).Faithful := by
  cases s with
  | leaf l =>
    exact (Codec.Lawful.visit_faithful l.kind l.name l.value).bind fun _ =>
      Codec.Lawful.close_faithful
  | close => exact Codec.Lawful.close_faithful

theorem walk_faithful [Codec.Lawful σ] (ss : List Stop) : (walk ss : Act σ Unit).Faithful := by
  induction ss with
  | nil => exact Act.faithful_pure ()
  | cons s ss ih => exact s.perform_faithful.bind fun _ => ih

theorem walk_direction_ne [Codec.Lawful σ] (ss : List Stop) {t : Traversal σ} {d : Direction}
    (h : t.direction ≠ d) : (walk ss t).state.direction ≠ d := by
  rw [((walk_faithful ss).settings t).direction]
  exact h

/-! ### Visits of single parts -/

variable {t : Traversal σ}

/-- A nested record is its fields and a close. -/
theorem visitNested_eq_walk {fields : Traversal σ → Visited σ Record} {r : Record}
    {ss : List Stop} (ht : t.error = none) (h : fields t = Visited.ofAct (walk ss) r t) :
    visitNested fields r t = Visited.ofAct (walk (ss ++ [.close])) r t := by
  rw [visitNested, ht, walk_append, walk_singleton, Visited.ofAct_bind, ← h]
  rfl

theorem visitLeaf_eq_perform [Codec.Observing σ] (kind : Kind) (name : String) (v : kind.Value)
    (t : Traversal σ) :
    visitLeaf kind name v t = Visited.ofAct (Stop.leaf ⟨name, kind, v⟩).perform v t := by
  rw [visitLeaf, Visited.ofAct, Stop.perform]
  cases hv : (Codec.visit kind name v t).result with
  | error e => simp only [Act.bind_of_error hv]
  | ok w =>
    have hw : w = v := Codec.Observing.visit_keeps kind name v w t hv
    subst hw
    simp only [Act.bind_of_ok hv, Visited.followedBy]

theorem visitSigned_eq_perform [Codec.Observing σ] (w : Signed) (name : String) (v : w.Value)
    (t : Traversal σ) :
    visitSigned w name v t =
      Visited.ofAct (Stop.leaf ⟨name, w.carrier, w.toCarrier v⟩).perform v t := by
  simp only [visitSigned, visitLeaf_eq_perform, Visited.ofAct]
  cases h : ((Stop.leaf ⟨name, w.carrier, w.toCarrier v⟩).perform t).result <;>
    simp only [Signed.ofCarrier_toCarrier]

/-! ### Visits of records

The state stays free of errors and keeps its direction as long as the walk succeeds, which is why
every statement has both as hypotheses: they are what the next part of the record starts from. -/

mutual

theorem Field.visit_eq_walk [Codec.Observing σ] : ∀ {f : Field}, f.isData →
    ∀ {t : Traversal σ}, t.error = none → t.direction ≠ .decode →
    f.visit t = Visited.ofAct (walk f.stops) f t
  | .leaf name kind v, _, t, _, _ => by
    rw [Field.visit, visitLeaf_eq_perform, Field.stops, walk_singleton]
    rfl
  | .signed name w v, _, t, _, _ => by
    rw [Field.visit, visitSigned_eq_perform, Field.stops, walk_singleton]
    rfl
  | .nested name body, hdata, t, ht, hdir => by
    rw [Field.isData] at hdata
    rw [Field.visit, visitNested_eq_walk ht (Record.visit_eq_walk hdata ht hdir), Field.stops]
    rfl
  | .sequence name items item, hdata, t, ht, hdir => by
    rw [Field.isData] at hdata
    let count : List Stop := [.leaf ⟨name, .u32, UInt32.ofNat items.length⟩]
    have hcount : visitLeaf .u32 name (UInt32.ofNat items.length) t =
        Visited.ofAct (walk count) (UInt32.ofNat items.length) t := by
      rw [visitLeaf_eq_perform, walk_singleton]
    have hstops : (Field.sequence name items item).stops = count ++ itemStops items := rfl
    rw [Field.visit, hstops, ofAct_walk_append]
    simp only [hcount, Visited.ofAct]
    cases hc : (walk count t).result with
    | error e => rfl
    | ok u =>
      have ht' := (walk_faithful count).error_of_ok ht hc
      have hdir' := walk_direction_ne count hdir
      cases hd : (walk count t).state.direction with
      | decode => exact absurd hd hdir'
      | encode => simp only [visitItems_eq_walk hdata ht' hdir']; rfl
      | inspect => simp only [visitItems_eq_walk hdata ht' hdir']; rfl

/-- **A visit is a walk.** -/
theorem Record.visit_eq_walk [Codec.Observing σ] : ∀ {r : Record}, r.isData →
    ∀ {t : Traversal σ}, t.error = none → t.direction ≠ .decode →
    r.visit t = Visited.ofAct (walk r.stops) r t
  | .strict fields, hdata, t, ht, hdir => by
    rw [Record.isData] at hdata
    rw [Record.visit, visitFields_eq_walk hdata ht hdir, Record.stops]
    rfl

theorem visitFields_eq_walk [Codec.Observing σ] : ∀ {fs : List Field}, fieldsData fs →
    ∀ {t : Traversal σ}, t.error = none → t.direction ≠ .decode →
    visitFields fs t = Visited.ofAct (walk (fieldStops fs)) fs t
  | [], _, t, _, _ => rfl
  | f :: fs, hdata, t, ht, hdir => by
    rw [fieldsData, Bool.and_eq_true] at hdata
    rw [visitFields, fieldStops, ofAct_walk_append, Field.visit_eq_walk hdata.1 ht hdir]
    simp only [Visited.ofAct]
    cases hf : (walk f.stops t).result with
    | error e => rfl
    | ok u =>
      have ht' := (walk_faithful f.stops).error_of_ok ht hf
      simp only [visitFields_eq_walk hdata.2 ht' (walk_direction_ne f.stops hdir)]
      rfl

theorem visitItems_eq_walk [Codec.Observing σ] : ∀ {rs : List Record}, itemsData rs →
    ∀ {t : Traversal σ}, t.error = none → t.direction ≠ .decode →
    visitItems rs t = Visited.ofAct (walk (itemStops rs)) rs t
  | [], _, t, _, _ => rfl
  | r :: rs, hdata, t, ht, hdir => by
    rw [itemsData, Bool.and_eq_true] at hdata
    have hr := visitNested_eq_walk ht (Record.visit_eq_walk hdata.1 ht hdir)
    rw [visitItems, itemStops, ofAct_walk_append, hr]
    simp only [Visited.ofAct]
    cases hw : (walk (r.stops ++ [.close]) t).result with
    | error e => rfl
    | ok u =>
      have ht' := (walk_faithful (r.stops ++ [.close])).error_of_ok ht hw
      simp only [visitItems_eq_walk hdata.2 ht' (walk_direction_ne (r.stops ++ [.close]) hdir)]
      rfl

end

/-! ### Runs -/

/-- A run whose parts all go well. -/
theorem run_of_visit {r v : Record} {t opened visited closed : Traversal σ}
    {log log' log'' : List Event} (ht : t.error = none)
    (hopen : (Codec.openRun : Act σ Unit) t = ⟨.ok (), opened, log⟩)
    (hvisit : r.visit opened = ⟨.ok (), v, visited, log'⟩)
    (hclose : (Codec.closeRun : Act σ Unit) visited = ⟨.ok (), closed, log''⟩)
    (hclosed : closed.error = none) :
    run r t = ⟨.ok (), v, closed, log ++ log' ++ log''⟩ := by
  simp only [run, ht, hopen, hvisit, settle, Act.pure_apply, hclose, List.append_nil,
    Traversal.check_eq_ok_iff.mpr hclosed]

/-- Where an error is stored, a run gives it and does nothing. -/
theorem run_of_error {t : Traversal σ} {e : Error} (h : t.error = some e) (r : Record) :
    run r t = ⟨.error e, r, t, []⟩ := by
  simp only [run, h]

/-- A run that cannot begin gives the error of its beginning and visits nothing. -/
theorem run_of_unopened {t : Traversal σ} {e : Error} (ht : t.error = none)
    (hopen : ((Codec.openRun : Act σ Unit) t).result = .error e) (r : Record) :
    (run r t).result = .error e ∧ (run r t).value = r ∧
      (run r t).state = ((Codec.openRun : Act σ Unit) t).state := by
  simp only [run, ht, hopen, and_self]

/-- A run that has begun visits, stores the error that the visit gave, and ends. -/
theorem run_of_opened {t : Traversal σ} (ht : t.error = none)
    (hopen : ((Codec.openRun : Act σ Unit) t).result = .ok ()) (r : Record) :
    let body := r.visit ((Codec.openRun : Act σ Unit) t).state
    (run r t).result = (run r t).state.check ∧ (run r t).value = body.value ∧
      (run r t).state =
        ((Codec.closeRun : Act σ Unit) (settle body.result body.state).state).state := by
  simp only [run, ht, hopen, and_self]

omit [Codec σ] in
/-- What a faithful act gives is stored already. -/
theorem settle_of_faithful {act : Act σ Unit} (h : act.Faithful) {t : Traversal σ}
    (ht : t.error = none) : (settle (act t).result (act t).state).state = (act t).state := by
  cases ha : (act t).result with
  | ok u => rfl
  | error e => rw [settle, Act.fail, h.error_of_error ht ha]

/-- **A run of data is a walk**, between its beginning and its end. -/
theorem run_eq_walk [Codec.Observing σ] {r : Record} (hr : r.isData) {t opened : Traversal σ}
    {log : List Event} (ht : t.error = none)
    (hopen : (Codec.openRun : Act σ Unit) t = ⟨.ok (), opened, log⟩) (hopened : opened.error = none)
    (hdir : opened.direction ≠ .decode) :
    (run r t).result = (run r t).state.check ∧ (run r t).value = r ∧
      (run r t).state = ((Codec.closeRun : Act σ Unit) (walk r.stops opened).state).state := by
  have hok : ((Codec.openRun : Act σ Unit) t).result = .ok () := by rw [hopen]
  have hwalk := Record.visit_eq_walk hr hopened hdir
  obtain ⟨hresult, hvalue, hstate⟩ := run_of_opened ht hok r
  rw [hopen, hwalk] at hvalue hstate
  refine ⟨hresult, hvalue, hstate.trans ?_⟩
  exact congrArg (fun u => ((Codec.closeRun : Act σ Unit) u).state)
    (settle_of_faithful (walk_faithful r.stops) hopened)

/-- A run in a history, and then the steps behind it. -/
theorem performAll_run_cons {r v : Record} {ss : List Step} {t u t' : Traversal σ}
    {result : Except Error Unit} {replies : List Reply} {log log' : List Event}
    (hrun : run r t = ⟨result, v, u, log⟩) (hsteps : performAll ss u = (replies, t', log')) :
    performAll (.run r :: ss) t = (.ran result v :: replies, t', log ++ log') := by
  simp only [performAll, Step.perform, hrun, hsteps]

/-- Where an error is stored, all runs give it and do nothing. -/
theorem performAll_of_error {t : Traversal σ} {e : Error} (h : t.error = some e)
    (rs : List Record) :
    performAll (rs.map .run) t = (rs.map (.ran (.error e)), t, []) := by
  induction rs with
  | nil => rfl
  | cons r rs ih => exact performAll_run_cons (run_of_error h r) ih

end RecordCodec
