import RecordCodec.Proofs.Lawful
import RecordCodec.Proofs.Leniency
import RecordCodec.Proofs.Observation

/-!
# Visits, stop by stop

A record without sequences has the same stops whatever is decoded into it, so visiting it is to
visit its stops one after another, and each is replaced by what the codec made of it. This holds
for codecs that decode as for all others.

A failure may be found in two places. A strict record sees it in the result, and leaves the rest
alone. A lenient record goes on, but all that it visits then is refused, and so it leaves the rest
alone as well. Hence what a failure leaves is told by the itinerary, and by nothing else of the
tree: in front of some stop all were visited, and from this stop on they are as before.

The stop itself is a matter of kinds. Where the value of a leaf was given but its end was not passed
over, the value is in its place, and yet a signed integer has not got it, as its carrier stands in a
place of its own.

## Main definitions

* `Stop.visit`, `visitStops` — the visit of a stop, and of stops in a row.
* `Stop.Remains` — what may be left of a stop at which a visit fails.
* `Taken` — what is left of an itinerary.

## Main results

* `Taken.append` — one itinerary after another.
* `Record.taken` — a record is visited stop by stop.
-/

namespace RecordCodec

variable {σ : Type} [Codec σ]

/-! ### Stops in a row -/

/-- Visits a stop. -/
def Stop.visit : Stop → Traversal σ → Visited σ Stop
  | .leaf l, t => (visitLeaf l.kind l.name l.value t).map fun v => .leaf ⟨l.name, l.kind, v⟩
  | .close, t => Visited.ofAct Codec.close .close t

/-- Visits stops one after another, up to the first that fails. -/
def visitStops : List Stop → Traversal σ → Visited σ (List Stop)
  | [], t => ⟨.ok (), [], t, []⟩
  | s :: ss, t =>
    let first := s.visit t
    match first.result with
    | .error e => ⟨.error e, first.value :: ss, first.state, first.log⟩
    | .ok () =>
      let others := visitStops ss first.state
      ⟨others.result, first.value :: others.value, others.state, first.log ++ others.log⟩

section

variable {s : Stop} {ss ss' : List Stop} {t : Traversal σ}

theorem visitStops_cons_of_ok (h : (s.visit t).result = .ok ()) :
    visitStops (s :: ss) t =
      ⟨(visitStops ss (s.visit t).state).result,
        (s.visit t).value :: (visitStops ss (s.visit t).state).value,
        (visitStops ss (s.visit t).state).state,
        (s.visit t).log ++ (visitStops ss (s.visit t).state).log⟩ := by
  rw [visitStops]
  simp only [h]

theorem visitStops_cons_of_error {e : Error} (h : (s.visit t).result = .error e) :
    visitStops (s :: ss) t =
      ⟨.error e, (s.visit t).value :: ss, (s.visit t).state, (s.visit t).log⟩ := by
  rw [visitStops]
  simp only [h]

/-- **Stops behind others** are visited from where these ended. -/
theorem visitStops_append_of_ok (h : (visitStops ss t).result = .ok ()) :
    visitStops (ss ++ ss') t =
      ⟨(visitStops ss' (visitStops ss t).state).result,
        (visitStops ss t).value ++ (visitStops ss' (visitStops ss t).state).value,
        (visitStops ss' (visitStops ss t).state).state,
        (visitStops ss t).log ++ (visitStops ss' (visitStops ss t).state).log⟩ := by
  induction ss generalizing t with
  | nil => rfl
  | cons s ss ih =>
    cases hs : (s.visit t).result with
    | error e =>
      rw [visitStops_cons_of_error hs] at h
      cases h
    | ok u =>
      rw [visitStops_cons_of_ok hs] at h
      rw [List.cons_append, visitStops_cons_of_ok hs, ih h, visitStops_cons_of_ok hs,
        List.append_assoc, List.cons_append]

theorem Stop.visit_tells [Codec.Freezing σ] (s : Stop) : VisitTells (σ := σ) s.visit := by
  cases s with
  | leaf l => exact visitLeaf_tells l.kind l.name l.value
  | close => exact Codec.Freezing.close_tells

theorem Stop.visit_ok [Codec.Lawful σ] (ht : t.error = none) (h : (s.visit t).result = .ok ()) :
    (s.visit t).state.error = none := by
  cases s with
  | leaf l => exact (visitLeaf_ok ht h).1
  | close => exact Codec.Lawful.close_faithful.error_of_ok ht h

theorem visitStops_ok [Codec.Lawful σ] (ht : t.error = none)
    (h : (visitStops ss t).result = .ok ()) : (visitStops ss t).state.error = none := by
  induction ss generalizing t with
  | nil => exact ht
  | cons s ss ih =>
    cases hs : (s.visit t).result with
    | error e =>
      rw [visitStops_cons_of_error hs] at h
      cases h
    | ok u =>
      rw [visitStops_cons_of_ok hs] at h ⊢
      exact ih (Stop.visit_ok ht hs) h

end

/-! ### The stop that fails -/

/-- What may be left of a stop that was visited from the state `t` and failed with `e`: the stop as
it was, or a leaf with the value that was read for it, if only its end could not be passed over. -/
inductive Stop.Remains (s : Stop) (t : Traversal σ) (e : Error) : Stop → Prop
  | old : s.Remains t e s
  | read {l : Leaf} {v : l.kind.Value} : s = .leaf l →
    (Codec.visit l.kind l.name l.value t).result = .ok v →
    ((Codec.close : Act σ Unit) (Codec.visit l.kind l.name l.value t).state).result = .error e →
    s.Remains t e (.leaf ⟨l.name, l.kind, v⟩)

theorem Stop.remains_visit {s : Stop} {t : Traversal σ} {e : Error}
    (h : (s.visit t).result = .error e) : s.Remains t e (s.visit t).value := by
  cases s with
  | close => exact .old
  | leaf l =>
    rw [Stop.visit, visitLeaf] at h ⊢
    cases hv : (Codec.visit l.kind l.name l.value t).result with
    | error e' => exact .old
    | ok v =>
      simp only [hv] at h
      exact .read rfl hv h

/-- **What is left of an itinerary** that was visited from the state `t`, and the state then. All
stops were visited, or those in front of one that failed. -/
inductive Taken (ss : List Stop) (t : Traversal σ) (us : List Stop) (u : Traversal σ) : Prop
  | all : (visitStops ss t).result = .ok () → us = (visitStops ss t).value →
    u = (visitStops ss t).state → Taken ss t us u
  | upTo {front back : List Stop} {s s' : Stop} {e : Error} : ss = front ++ s :: back →
    (visitStops front t).result = .ok () → (s.visit (visitStops front t).state).result = .error e →
    s.Remains (visitStops front t).state e s' → us = (visitStops front t).value ++ s' :: back →
    u = (s.visit (visitStops front t).state).state → Taken ss t us u

namespace Taken

variable {ss ss' us us' : List Stop} {t u w : Traversal σ} {s s' : Stop}

theorem nil (t : Traversal σ) : Taken [] t [] t :=
  .all rfl rfl rfl

/-- A single stop that was visited without failure. -/
theorem stop_of_ok (h : (s.visit t).result = .ok ()) :
    Taken [s] t [(s.visit t).value] (s.visit t).state := by
  have hvisit : visitStops [s] t = _ := visitStops_cons_of_ok h
  exact .all (congrArg Visited.result hvisit) (congrArg Visited.value hvisit).symm
    (congrArg Visited.state hvisit).symm

/-- A single stop that failed. -/
theorem stop_of_error {e : Error} (h : (s.visit t).result = .error e) (h' : s.Remains t e s') :
    Taken [s] t [s'] (s.visit t).state := by
  have hsplit : [s] = [] ++ s :: [] := rfl
  exact .upTo hsplit rfl h h' rfl rfl

theorem stop (s : Stop) (t : Traversal σ) : Taken [s] t [(s.visit t).value] (s.visit t).state := by
  cases h : (s.visit t).result with
  | error e => exact stop_of_error h (Stop.remains_visit h)
  | ok v => exact stop_of_ok h

/-- **One itinerary after another.** The second is visited if the first was, or it is left alone. -/
theorem append [Codec.Lawful σ] [Codec.Freezing σ] (ht : t.error = none) (h : Taken ss t us u)
    (hgoes : u.error = none → Taken ss' u us' w) (hstill : u.error ≠ none → us' = ss' ∧ w = u) :
    Taken (ss ++ ss') t (us ++ us') w := by
  cases h with
  | all hok hus hu =>
    subst hus hu
    cases hgoes (visitStops_ok ht hok) with
    | all hok' hus' hw =>
      have hvisit : visitStops (ss ++ ss') t = _ := visitStops_append_of_ok hok
      rw [hus', hw]
      exact .all ((congrArg Visited.result hvisit).trans hok')
        (congrArg Visited.value hvisit).symm (congrArg Visited.state hvisit).symm
    | @upTo front back s s' e hss' hfront hfails hremains hus' hw =>
      -- a failure in the second is one of both, with the whole first in front of it
      have hsplit : ss ++ ss' = (ss ++ front) ++ s :: back := by rw [hss', List.append_assoc]
      have hvisit : visitStops (ss ++ front) t = _ := visitStops_append_of_ok hok
      have hstate := congrArg Visited.state hvisit
      have hvalue := congrArg Visited.value hvisit
      simp only at hstate hvalue
      rw [← hstate] at hfails hremains hw
      refine .upTo hsplit ((congrArg Visited.result hvisit).trans hfront) hfails hremains ?_ hw
      rw [hus', hvalue, List.append_assoc]
  | @upTo front back s s' e hss hfront hfails hremains hus hu =>
    -- a failure in the first is stored, so the second was left alone
    have herror := s.visit_tells (visitStops front t).state e hfails
    rw [← hu] at herror
    obtain ⟨rfl, rfl⟩ := hstill (by rw [herror]; exact Option.some_ne_none e)
    have hsplit : ss ++ us' = front ++ s :: (back ++ us') := by
      rw [hss, List.append_assoc, List.cons_append]
    refine .upTo hsplit hfront hfails hremains ?_ hu
    rw [hus, List.append_assoc, List.cons_append]

end Taken

/-! ### Fields that are left alone -/

theorem Field.isCall_of_isPassive {f : Field} (h : f.isPassive) : f.isCall := by
  cases f with
  | leaf | signed | nested | sequence => rfl
  | guarded | failing | raising | recovering | watching => cases h

section

variable [Codec.Refusing σ] {t : Traversal σ} {e : Error} (ht : t.error = some e)

include ht

theorem visitFields_still {fs : List Field} (hfs : fieldsPassive fs) :
    (visitFields fs t).value = fs ∧ (visitFields fs t).state = t := by
  cases fs with
  | nil => exact ⟨rfl, rfl⟩
  | cons f fs =>
    rw [fieldsPassive, Bool.and_eq_true] at hfs
    have hrefused := refused_call ht (Field.isCall_of_isPassive hfs.1)
    rw [visitFields]
    simp only [hrefused.result, hrefused.value, hrefused.state, and_self]

theorem visitEach_still {fs : List Field} (hfs : fieldsPassive fs) :
    (visitEach fs t).value.2 = fs ∧ (visitEach fs t).state = t := by
  induction fs with
  | nil => exact ⟨rfl, rfl⟩
  | cons f fs ih =>
    rw [fieldsPassive, Bool.and_eq_true] at hfs
    have hrefused := refused_call ht (Field.isCall_of_isPassive hfs.1)
    obtain ⟨hvalue, hstate⟩ := ih hfs.2
    rw [visitEach]
    simp only [hrefused.value, hrefused.state, hvalue, hstate, and_self]

end

/-! ### Records -/

/-- There are no sequences in the record. -/
def Record.isFlat (r : Record) : Bool :=
  r.everySequence fun _ => false

section

variable {t : Traversal σ}

/-- A signed integer is visited as its carrier. Where the visit fails it is as before. -/
theorem taken_signed (w : Signed) (name : String) (v : w.Value) (t : Traversal σ) :
    let seen := visitSigned w name v t
    Taken [.leaf ⟨name, w.carrier, w.toCarrier v⟩] t
      [.leaf ⟨name, w.carrier, w.toCarrier seen.value⟩] seen.state := by
  intro seen
  have hvisit : (Stop.leaf ⟨name, w.carrier, w.toCarrier v⟩).visit t =
      (visitLeaf w.carrier name (w.toCarrier v) t).map fun v => .leaf ⟨name, w.carrier, v⟩ := rfl
  cases h : (visitLeaf w.carrier name (w.toCarrier v) t).result with
  | error e =>
    have hseen : seen = ⟨.error e, v, (visitLeaf w.carrier name (w.toCarrier v) t).state,
        (visitLeaf w.carrier name (w.toCarrier v) t).log⟩ := by
      simp only [seen, visitSigned, h]
    rw [hseen]
    have hfails : ((Stop.leaf ⟨name, w.carrier, w.toCarrier v⟩).visit t).result = .error e := h
    exact .stop_of_error hfails .old
  | ok u =>
    have hseen : seen = ⟨.ok (), w.ofCarrier (visitLeaf w.carrier name (w.toCarrier v) t).value,
        (visitLeaf w.carrier name (w.toCarrier v) t).state,
        (visitLeaf w.carrier name (w.toCarrier v) t).log⟩ := by
      simp only [seen, visitSigned, h]
    rw [hseen]
    simp only [Signed.toCarrier_ofCarrier]
    exact .stop_of_ok h

/-- A nested record is its fields and a close. -/
theorem taken_nested [Codec.Lawful σ] [Codec.Freezing σ] {r : Record} (hr : r.isPassive)
    (ht : t.error = none) (h : Taken r.stops t (r.visit t).value.stops (r.visit t).state) :
    Taken (r.stops ++ [.close]) t ((visitNested r.visit r t).value.stops ++ [.close])
      (visitNested r.visit r t).state := by
  have hnested : visitNested r.visit r t = (r.visit t).followedBy Codec.close := by
    rw [visitNested, ht]
  rw [hnested, Visited.value_followedBy]
  rw [Visited.followedBy_state (Record.visit_tells hr t) Codec.Freezing.close_freezes]
  refine h.append ht (fun _ => .stop .close _) fun herror => ⟨rfl, ?_⟩
  exact Codec.Freezing.close_freezes _ herror

end

mutual

theorem Field.taken [Codec.Lawful σ] [Codec.Refusing σ] [Codec.Freezing σ] :
    ∀ {f : Field}, f.isPassive → f.everySequence (fun _ => false) →
    ∀ {t : Traversal σ}, t.error = none →
    Taken f.stops t (f.visit t).value.stops (f.visit t).state
  | .leaf name kind v, _, _, t, _ => .stop (.leaf ⟨name, kind, v⟩) t
  | .signed name w v, _, _, t, _ => taken_signed w name v t
  | .nested _ body, h, hflat, t, ht =>
    taken_nested (r := body) h ht (Record.taken h hflat ht)
  | .sequence _ _ _, _, hflat, _, _ => by cases hflat

/-- **A record is visited stop by stop**, be it strict or lenient. -/
theorem Record.taken [Codec.Lawful σ] [Codec.Refusing σ] [Codec.Freezing σ] :
    ∀ {r : Record}, r.isPassive → r.isFlat → ∀ {t : Traversal σ}, t.error = none →
    Taken r.stops t (r.visit t).value.stops (r.visit t).state
  | .strict _, h, hflat, _, ht => fieldsTaken h hflat ht
  | .lenient _ _, h, hflat, _, ht => eachTaken h hflat ht

theorem fieldsTaken [Codec.Lawful σ] [Codec.Refusing σ] [Codec.Freezing σ] :
    ∀ {fs : List Field}, fieldsPassive fs → everySequenceOfFields (fun _ => false) fs →
    ∀ {t : Traversal σ}, t.error = none →
    Taken (fieldStops fs) t (fieldStops (visitFields fs t).value) (visitFields fs t).state
  | [], _, _, t, _ => .nil t
  | f :: fs, h, hflat, t, ht => by
    rw [fieldsPassive, Bool.and_eq_true] at h
    rw [everySequenceOfFields, Bool.and_eq_true] at hflat
    have hfirst := Field.taken h.1 hflat.1 ht
    rw [visitFields]
    cases hresult : (f.visit t).result with
    | error e =>
      have herror := Field.visit_tells h.1 t e hresult
      refine hfirst.append ht (fun hclean => ?_) fun _ => ⟨rfl, rfl⟩
      rw [herror] at hclean
      cases hclean
    | ok u =>
      -- a lenient record in the first field may have failed all the same
      refine hfirst.append ht (fun hclean => fieldsTaken h.2 hflat.2 hclean) fun herror => ?_
      obtain ⟨e, he⟩ := Option.ne_none_iff_exists'.mp herror
      obtain ⟨hvalue, hstate⟩ := visitFields_still he h.2
      exact ⟨congrArg fieldStops hvalue, hstate⟩

theorem eachTaken [Codec.Lawful σ] [Codec.Refusing σ] [Codec.Freezing σ] :
    ∀ {fs : List Field}, fieldsPassive fs → everySequenceOfFields (fun _ => false) fs →
    ∀ {t : Traversal σ}, t.error = none →
    Taken (fieldStops fs) t (fieldStops (visitEach fs t).value.2) (visitEach fs t).state
  | [], _, _, t, _ => .nil t
  | f :: fs, h, hflat, t, ht => by
    rw [fieldsPassive, Bool.and_eq_true] at h
    rw [everySequenceOfFields, Bool.and_eq_true] at hflat
    rw [visitEach]
    have hfirst := Field.taken h.1 hflat.1 ht
    refine hfirst.append ht (fun hclean => eachTaken h.2 hflat.2 hclean) fun herror => ?_
    obtain ⟨e, he⟩ := Option.ne_none_iff_exists'.mp herror
    obtain ⟨hvalue, hstate⟩ := visitEach_still he h.2
    exact ⟨congrArg fieldStops hvalue, hstate⟩

end

end RecordCodec
