import RecordCodec.Proofs.Refusal
import RecordCodec.Proofs.Walk

/-!
# Passive records

A passive record has data in it and nothing that acts, but unlike a plain one it may go on after a
field has failed. It gains nothing by that. The error is stored, so whatever it visits next is
refused, and the state stays as the first failure left it. Nor can the failure get lost: a lenient
record does not give it back, but the run that visits the record finds it stored.

Two things are said of such records here, for codecs that decode as well as for those that do not.
The error of a visit is stored in the end. And the states before and after a visit stand in every
relation that the codec's acts lead along.

## Main definitions

* `Record.isPassive` — the record consists of data, visited strictly or leniently.
* `Act.Tells`, `Act.Freezes` — the act stores the error that it gives; it does nothing where one is
  stored.
* `Codec.Freezing` — both are so for all acts of the codec.
* `Codec.Leads` — a relation that the acts of a codec lead along.

## Main results

* `Record.visit_tells`, `run_tells` — the error of a visit, and of a run, is stored.
* `Record.visit_leads` — a visit leads along what the acts lead along.
* `run_passive` — how a run of a passive record ends.
-/

namespace RecordCodec

/-! ### Passive records -/

mutual

/-- The field is data, or consists of data. -/
def Field.isPassive : Field → Bool
  | .leaf _ _ _ | .signed _ _ _ => true
  | .nested _ body => body.isPassive
  | .sequence _ items item => itemsPassive items && item.isPassive
  | .guarded _ _ | .failing _ | .raising _ | .recovering _ | .watching _ => false

/-- The record consists of data, visited strictly or leniently. -/
def Record.isPassive : Record → Bool
  | .strict fields | .lenient fields _ => fieldsPassive fields

/-- The fields consist of data. -/
def fieldsPassive : List Field → Bool
  | [] => true
  | f :: fs => f.isPassive && fieldsPassive fs

/-- The items consist of data. -/
def itemsPassive : List Record → Bool
  | [] => true
  | r :: rs => r.isPassive && itemsPassive rs

end

mutual

theorem Field.isPassive_of_isPlain : ∀ {f : Field}, f.isPlain → f.isPassive
  | .leaf _ _ _, _ => rfl
  | .signed _ _ _, _ => rfl
  | .nested _ _, h => Record.isPassive_of_isPlain h
  | .sequence name items item, h => by
    rw [Field.isPlain, Bool.and_eq_true] at h
    rw [Field.isPassive, itemsPassive_of_itemsPlain h.2, Record.isPassive_of_isPlain h.1]
    rfl

/-- Plain records are passive. -/
theorem Record.isPassive_of_isPlain : ∀ {r : Record}, r.isPlain → r.isPassive
  | .strict _, h => fieldsPassive_of_fieldsPlain h

theorem fieldsPassive_of_fieldsPlain : ∀ {fs : List Field}, fieldsPlain fs → fieldsPassive fs
  | [], _ => rfl
  | f :: fs, h => by
    rw [fieldsPlain, Bool.and_eq_true] at h
    rw [fieldsPassive, Field.isPassive_of_isPlain h.1, fieldsPassive_of_fieldsPlain h.2]
    rfl

theorem itemsPassive_of_itemsPlain {item : Record} :
    ∀ {rs : List Record}, itemsPlain item rs → itemsPassive rs
  | [], _ => rfl
  | r :: rs, h => by
    rw [itemsPlain, Bool.and_eq_true, Bool.and_eq_true] at h
    rw [itemsPassive, Record.isPassive_of_isPlain h.1.1, itemsPassive_of_itemsPlain h.2]
    rfl

end

/-! ### Acts -/

variable {σ α β : Type}

namespace Act

/-- The error that the act gives is stored. -/
def Tells (act : Act σ α) : Prop :=
  ∀ t e, (act t).result = .error e → (act t).state.error = some e

/-- Where an error is stored, the act leaves the state alone. -/
def Freezes (act : Act σ α) : Prop :=
  ∀ t, t.error ≠ none → (act t).state = t

theorem tells_pure (a : α) : (pure a : Act σ α).Tells :=
  fun _ _ => nofun

theorem freezes_pure (a : α) : (pure a : Act σ α).Freezes :=
  fun _ _ => rfl

theorem tells_fail (e : Error) : (fail e : Act σ α).Tells := by
  intro t e' h
  obtain ⟨stored, hresult, hstate⟩ := error_fail (α := α) e t
  rw [hresult] at h
  rw [hstate, Except.error.inj h]

theorem Tells.bind {act : Act σ α} {next : α → Act σ β} (h : act.Tells)
    (hnext : ∀ a, (next a).Tells) : (act >>= next).Tells := by
  intro t e he
  cases ha : (act t).result with
  | error e' =>
    rw [bind_of_error ha] at he ⊢
    obtain rfl : e' = e := Except.error.inj he
    exact h t e' ha
  | ok a =>
    rw [bind_of_ok ha] at he ⊢
    exact hnext a _ e he

theorem Freezes.bind {act : Act σ α} {next : α → Act σ β} (h : act.Freezes)
    (hnext : ∀ a, (next a).Freezes) : (act >>= next).Freezes := by
  intro t ht
  have hact := h t ht
  cases ha : (act t).result with
  | error e =>
    rw [bind_of_error ha]
    exact hact
  | ok a =>
    rw [bind_of_ok ha, hact]
    exact hnext a t ht

theorem Refuses.freezes {act : Act σ α} (h : act.Refuses) : act.Freezes := by
  intro t ht
  obtain ⟨e, he⟩ := Option.ne_none_iff_exists'.mp ht
  exact (h t e he).2

/-- An act that refuses tells, if it tells where no error is stored. -/
theorem Tells.of_refuses {act : Act σ α} (h : act.Refuses)
    (h' : ∀ t, t.error = none → ∀ e, (act t).result = .error e →
      (act t).state.error = some e) : act.Tells := by
  intro t e he
  cases ht : t.error with
  | none => exact h' t ht e he
  | some stored =>
    obtain ⟨hresult, hstate⟩ := h t stored ht
    rw [hresult] at he
    rw [hstate, ht, Except.error.inj he]

theorem Tells.of_faithful {act : Act σ α} (h : act.Faithful) (h' : act.Refuses) :
    act.Tells :=
  .of_refuses h' fun _ ht _ he => h.error_of_error ht he

end Act

/-- A codec that stores its errors, and does nothing more once one is stored. -/
class Codec.Freezing (σ : Type) [Codec σ] : Prop where
  visit_tells : ∀ (kind : Kind) (name : String) (v : kind.Value),
    (Codec.visit (σ := σ) kind name v).Tells
  visit_freezes : ∀ (kind : Kind) (name : String) (v : kind.Value),
    (Codec.visit (σ := σ) kind name v).Freezes
  close_tells : (Codec.close : Act σ Unit).Tells
  close_freezes : (Codec.close : Act σ Unit).Freezes

/-! ### Visits of single parts -/

/-- The error that the visit gives is stored. -/
def VisitTells (visit : Traversal σ → Visited σ α) : Prop :=
  ∀ t e, (visit t).result = .error e → (visit t).state.error = some e

theorem Visited.followedBy_tells {v : Visited σ α} {act : Act σ Unit}
    (hv : ∀ e, v.result = .error e → v.state.error = some e) (h : act.Tells) :
    ∀ e, (v.followedBy act).result = .error e → (v.followedBy act).state.error = some e := by
  intro e he
  rw [followedBy] at he ⊢
  cases hr : v.result with
  | error e' =>
    rw [hr] at he
    exact hv e he
  | ok u =>
    rw [hr] at he
    exact h v.state e he

theorem visitCopies_tells {item : Traversal σ → Visited σ Record} (h : VisitTells item)
    (n : Nat) : VisitTells (visitCopies item n) := by
  induction n with
  | zero => exact fun _ _ => nofun
  | succ n ih =>
    intro t e he
    rw [visitCopies] at he ⊢
    cases hi : (item t).result with
    | error e' =>
      rw [hi] at he
      obtain rfl : e' = e := Except.error.inj he
      exact h t e' hi
    | ok u =>
      rw [hi] at he
      exact ih _ e he

section

variable [Codec σ]

theorem visitLeaf_tells [Codec.Freezing σ] (kind : Kind) (name : String) (v : kind.Value) :
    VisitTells (visitLeaf (σ := σ) kind name v) := by
  intro t e he
  rw [visitLeaf] at he ⊢
  cases hv : (Codec.visit kind name v t).result with
  | error e' =>
    rw [hv] at he
    obtain rfl : e' = e := Except.error.inj he
    exact Codec.Freezing.visit_tells kind name v t e' hv
  | ok new =>
    rw [hv] at he
    exact Visited.followedBy_tells (fun _ h => by cases h) Codec.Freezing.close_tells e he

theorem visitSigned_tells [Codec.Freezing σ] (w : Signed) (name : String) (v : w.Value) :
    VisitTells (visitSigned (σ := σ) w name v) := by
  intro t e he
  have hleaf := visitLeaf_tells w.carrier name (w.toCarrier v) t
  rw [visitSigned] at he ⊢
  cases hv : (visitLeaf w.carrier name (w.toCarrier v) t).result with
  | error e' =>
    rw [hv] at he
    obtain rfl : e' = e := Except.error.inj he
    exact hleaf e' hv
  | ok u =>
    rw [hv] at he
    cases he

theorem visitNested_tells [Codec.Freezing σ] {fields : Traversal σ → Visited σ Record}
    (h : VisitTells fields) (r : Record) : VisitTells (visitNested fields r) := by
  intro t e he
  rw [visitNested] at he ⊢
  cases ht : t.error with
  | some stored =>
    rw [ht] at he
    obtain rfl : stored = e := Except.error.inj he
    exact ht
  | none =>
    rw [ht] at he
    exact Visited.followedBy_tells (h t) Codec.Freezing.close_tells e he

theorem decodeItems_tells {item : Traversal σ → Visited σ Record} (h : VisitTells item)
    (count : Nat) : VisitTells (decodeItems item count) := by
  intro t e he
  rw [decodeItems] at he ⊢
  cases hs : shortage count t with
  | some left =>
    rw [hs] at he
    exact Act.tells_fail _ t e he
  | none =>
    rw [hs] at he
    exact visitCopies_tells h count t e he

/-! ### The error of a visit -/

mutual

theorem Field.visit_tells [Codec.Freezing σ] : ∀ {f : Field}, f.isPassive →
    VisitTells (σ := σ) f.visit
  | .leaf name kind v, _, t, e, he => visitLeaf_tells kind name v t e he
  | .signed name w v, _, t, e, he => visitSigned_tells w name v t e he
  | .nested name body, h, t, e, he =>
    visitNested_tells (Record.visit_tells (r := body) h) body t e he
  | .sequence name items item, h, t, e, he => by
    rw [Field.isPassive, Bool.and_eq_true] at h
    have hcount := visitLeaf_tells .u32 name (UInt32.ofNat items.length) t
    have hitem := visitNested_tells (σ := σ) (Record.visit_tells h.2) item
    rw [Field.visit] at he ⊢
    cases hc : (visitLeaf .u32 name (UInt32.ofNat items.length) t).result with
    | error e' =>
      simp only [hc] at he ⊢
      exact hcount e (hc.trans he)
    | ok u =>
      simp only [hc] at he ⊢
      cases hd : (visitLeaf .u32 name (UInt32.ofNat items.length) t).state.direction with
      | decode =>
        simp only [hd] at he ⊢
        exact decodeItems_tells hitem _ _ e he
      | encode | inspect =>
        simp only [hd] at he ⊢
        exact visitItems_tells h.1 _ e he

/-- **The error of a visit** of a passive record is stored. -/
theorem Record.visit_tells [Codec.Freezing σ] : ∀ {r : Record}, r.isPassive →
    VisitTells (σ := σ) r.visit
  | .strict _, h, t, e, he => visitFields_tells h t e he
  | .lenient fs _, _, t, e, he => by
    cases fs <;> cases he

theorem visitFields_tells [Codec.Freezing σ] : ∀ {fs : List Field}, fieldsPassive fs →
    VisitTells (σ := σ) (visitFields fs)
  | [], _, _, _, he => by cases he
  | f :: fs, h, t, e, he => by
    rw [fieldsPassive, Bool.and_eq_true] at h
    rw [visitFields] at he ⊢
    cases hf : (f.visit t).result with
    | error e' =>
      simp only [hf] at he ⊢
      exact Field.visit_tells h.1 t e (hf.trans he)
    | ok u =>
      simp only [hf] at he ⊢
      exact visitFields_tells h.2 _ e he

theorem visitItems_tells [Codec.Freezing σ] : ∀ {rs : List Record}, itemsPassive rs →
    VisitTells (σ := σ) (visitItems rs)
  | [], _, _, _, he => by cases he
  | r :: rs, h, t, e, he => by
    rw [itemsPassive, Bool.and_eq_true] at h
    rw [visitItems] at he ⊢
    cases hr : (visitNested r.visit r t).result with
    | error e' =>
      simp only [hr] at he ⊢
      exact visitNested_tells (Record.visit_tells h.1) r t e (hr.trans he)
    | ok u =>
      simp only [hr] at he ⊢
      exact visitItems_tells h.2 _ e he

end

/-- The end of a run of a passive record, after a beginning without failure. What the visit gave is
stored already, so it need not be stored again. -/
theorem run_passive [Codec.Freezing σ] {r : Record} (hr : r.isPassive) {t : Traversal σ}
    (ht : t.error = none) (hopen : ((Codec.openRun : Act σ Unit) t).result = .ok ()) :
    let body := r.visit ((Codec.openRun : Act σ Unit) t).state
    (run r t).state = ((Codec.closeRun : Act σ Unit) body.state).state ∧
      (run r t).result = (run r t).state.check := by
  intro body
  have hsettle : (settle body.result body.state).state = body.state := by
    cases hbody : body.result with
    | ok u => rfl
    | error e => rw [settle, Act.fail, Record.visit_tells hr _ e hbody]
  obtain ⟨hresult, -, hstate⟩ := run_of_opened ht hopen r
  exact ⟨hstate.trans (congrArg (fun u => ((Codec.closeRun : Act σ Unit) u).state) hsettle),
    hresult⟩

/-- **The error of a run** of a passive record is stored. -/
theorem run_tells [Codec.Freezing σ] (hopen : (Codec.openRun : Act σ Unit).Tells) {r : Record}
    (hr : r.isPassive) : VisitTells (σ := σ) (run r) := by
  intro t e he
  cases ht : t.error with
  | some stored =>
    rw [run_of_error ht] at he ⊢
    rw [ht, Except.error.inj he]
  | none =>
    cases ho : ((Codec.openRun : Act σ Unit) t).result with
    | error e' =>
      obtain ⟨hresult, -, hstate⟩ := run_of_unopened ht ho r
      rw [hstate]
      exact hopen t e (ho.trans (hresult.symm.trans he))
    | ok u =>
      rw [(run_passive hr ht ho).2] at he
      exact Traversal.error_of_check he

end

/-! ### Visits lead along what acts lead along -/

/-- A relation that the acts of a codec lead along, however many of them are done in a row. -/
structure Codec.Leads [Codec σ] (R : Traversal σ → Traversal σ → Prop) : Prop where
  refl : ∀ t, R t t
  trans : ∀ {t u w}, R t u → R u w → R t w
  visit : ∀ (kind : Kind) (name : String) (v : kind.Value) (t : Traversal σ),
    R t (Codec.visit kind name v t).state
  close : ∀ t, R t ((Codec.close : Act σ Unit) t).state
  /-- A count that cannot be true. -/
  short : ∀ {count left : Nat} {t : Traversal σ}, shortage count t = some left →
    R t ((Act.fail (.bufferExhausted count left) : Act σ Unit) t).state

section

variable [Codec σ] {R : Traversal σ → Traversal σ → Prop}

theorem Visited.followedBy_leads (hR : Codec.Leads R) {t : Traversal σ} {v : Visited σ α}
    (h : R t v.state) : R t (v.followedBy Codec.close).state := by
  rw [followedBy]
  cases v.result with
  | error e => exact h
  | ok u => exact hR.trans h (hR.close _)

theorem visitLeaf_leads (hR : Codec.Leads R) (kind : Kind) (name : String) (v : kind.Value)
    (t : Traversal σ) : R t (visitLeaf kind name v t).state := by
  have hseen := hR.visit kind name v t
  rw [visitLeaf]
  cases (Codec.visit kind name v t).result with
  | error e => exact hseen
  | ok new => exact Visited.followedBy_leads hR hseen

theorem visitSigned_leads (hR : Codec.Leads R) (w : Signed) (name : String) (v : w.Value)
    (t : Traversal σ) : R t (visitSigned w name v t).state := by
  have hleaf := visitLeaf_leads hR w.carrier name (w.toCarrier v) t
  rw [visitSigned]
  cases (visitLeaf w.carrier name (w.toCarrier v) t).result <;> exact hleaf

theorem visitNested_leads (hR : Codec.Leads R) {fields : Traversal σ → Visited σ Record}
    (h : ∀ t, R t (fields t).state) (r : Record) (t : Traversal σ) :
    R t (visitNested fields r t).state := by
  rw [visitNested]
  cases t.error with
  | some e => exact hR.refl t
  | none => exact Visited.followedBy_leads hR (h t)

theorem visitCopies_leads (hR : Codec.Leads R) {item : Traversal σ → Visited σ Record}
    (h : ∀ t, R t (item t).state) (n : Nat) (t : Traversal σ) :
    R t (visitCopies item n t).state := by
  induction n generalizing t with
  | zero => exact hR.refl t
  | succ n ih =>
    rw [visitCopies]
    cases (item t).result with
    | error e => exact h t
    | ok u => exact hR.trans (h t) (ih _)

theorem decodeItems_leads (hR : Codec.Leads R) {item : Traversal σ → Visited σ Record}
    (h : ∀ t, R t (item t).state) (count : Nat) (t : Traversal σ) :
    R t (decodeItems item count t).state := by
  rw [decodeItems]
  cases hs : shortage count t with
  | some left => exact hR.short hs
  | none => exact visitCopies_leads hR h count t

mutual

theorem Field.visit_leads (hR : Codec.Leads R) : ∀ {f : Field}, f.isPassive →
    ∀ t, R t (f.visit t).state
  | .leaf name kind v, _, t => visitLeaf_leads hR kind name v t
  | .signed name w v, _, t => visitSigned_leads hR w name v t
  | .nested name body, h, t => visitNested_leads hR (Record.visit_leads hR (r := body) h) body t
  | .sequence name items item, h, t => by
    rw [Field.isPassive, Bool.and_eq_true] at h
    have hcount := visitLeaf_leads hR .u32 name (UInt32.ofNat items.length) t
    have hitem := visitNested_leads hR (Record.visit_leads hR h.2) item
    rw [Field.visit]
    cases (visitLeaf .u32 name (UInt32.ofNat items.length) t).result with
    | error e => exact hcount
    | ok u =>
      cases (visitLeaf .u32 name (UInt32.ofNat items.length) t).state.direction with
      | decode => exact hR.trans hcount (decodeItems_leads hR hitem _ _)
      | encode | inspect => exact hR.trans hcount (visitItems_leads hR h.1 _)

/-- **Visits of passive records** lead along what the acts of the codec lead along. -/
theorem Record.visit_leads (hR : Codec.Leads R) : ∀ {r : Record}, r.isPassive →
    ∀ t, R t (r.visit t).state
  | .strict _, h, t => visitFields_leads hR h t
  | .lenient _ _, h, t => visitEach_leads hR h t

theorem visitFields_leads (hR : Codec.Leads R) : ∀ {fs : List Field}, fieldsPassive fs →
    ∀ t, R t (visitFields fs t).state
  | [], _, t => hR.refl t
  | f :: fs, h, t => by
    rw [fieldsPassive, Bool.and_eq_true] at h
    have hfirst := Field.visit_leads hR h.1 t
    rw [visitFields]
    cases (f.visit t).result with
    | error e => exact hfirst
    | ok u => exact hR.trans hfirst (visitFields_leads hR h.2 _)

theorem visitEach_leads (hR : Codec.Leads R) : ∀ {fs : List Field}, fieldsPassive fs →
    ∀ t, R t (visitEach fs t).state
  | [], _, t => hR.refl t
  | f :: fs, h, t => by
    rw [fieldsPassive, Bool.and_eq_true] at h
    rw [visitEach]
    exact hR.trans (Field.visit_leads hR h.1 t) (visitEach_leads hR h.2 _)

theorem visitItems_leads (hR : Codec.Leads R) : ∀ {rs : List Record}, itemsPassive rs →
    ∀ t, R t (visitItems rs t).state
  | [], _, t => hR.refl t
  | r :: rs, h, t => by
    rw [itemsPassive, Bool.and_eq_true] at h
    have hfirst := visitNested_leads hR (Record.visit_leads hR h.1) r t
    rw [visitItems]
    cases (visitNested r.visit r t).result with
    | error e => exact hfirst
    | ok u => exact hR.trans hfirst (visitItems_leads hR h.2 _)

end

end

end RecordCodec
