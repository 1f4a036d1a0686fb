import RecordCodec.Proofs.Binary.Safety
import RecordCodec.Proofs.Binary.Size

/-!
# Announced errors

Each error that a traversal stores is announced by an event, and `Announced` says that the events
are the whole truth about it. From a state without an error, what is announced is what is stored in
the end; from a state with an error, nothing is announced, and the error stays. So the first
announcement in a trace is the first error that was stored, and there is no second one.

A record that takes the stored error back is out of this. Everything else that records do of their
own is allowed: they may store errors, give errors without storing them, and pass over those that
their fields gave.

## Main definitions

* `failures` — the errors that a trace announces.
* `Announced` — all that happened to the stored error between two states is in the trace.
* `Codec.Announcing` — all acts of the codec announce the errors that they store.
* `Record.keepsErrors` — the record takes no error back.

## Main results

* `Act.Announces.bind`, `Act.announces_fail` — acts that announce the errors that they store.
* `Record.visit_announced` — all that a visit does to the stored error is in its trace.
-/

namespace RecordCodec

variable {σ α β : Type}

/-! ### Announcements -/

/-- The error that an event announces. -/
def Event.failure? : Event → Option (Direction × Error)
  | .failed direction e => some (direction, e)
  | .field _ _ _ | .trailer _ _ | .measured _ _ | .summed _ _ | .keyed _ _ | .registered _ _ _
  | .declared _ _ _ _ | .outOfRange _ _ _ | .unbuildable _ _ _ _ | .corrupt _ _ _ _
  | .built _ _ _ _ => none

/-- The errors that a trace announces. -/
def failures (log : List Event) : List (Direction × Error) :=
  log.filterMap Event.failure?

theorem failures_append (log log' : List Event) :
    failures (log ++ log') = failures log ++ failures log' :=
  List.filterMap_append

/-- What happened to the stored error from the first state to the second is what the trace says. -/
structure Announced (t : Traversal σ) (log : List Event) (u : Traversal σ) : Prop where
  direction : u.direction = t.direction
  /-- Where an error was stored, it stays, and no other one is announced. -/
  stays : ∀ e, t.error = some e → u.error = some e ∧ failures log = []
  /-- Where none was stored, the error that is stored in the end is announced, and no other one. -/
  tells : t.error = none → failures log = (u.error.map (t.direction, ·)).toList

namespace Announced

variable {t u w : Traversal σ} {log log' : List Event}

theorem of_same_error (hdir : u.direction = t.direction) (herror : u.error = t.error)
    (hlog : failures log = []) : Announced t log u where
  direction := hdir
  stays e he := ⟨herror.trans he, hlog⟩
  tells ht := by rw [hlog, herror, ht]; rfl

theorem refl (t : Traversal σ) : Announced t [] t :=
  of_same_error rfl rfl rfl

theorem trans (h : Announced t log u) (h' : Announced u log' w) :
    Announced t (log ++ log') w where
  direction := h'.direction.trans h.direction
  stays e he := by
    obtain ⟨hu, hlog⟩ := h.stays e he
    obtain ⟨hw, hlog'⟩ := h'.stays e hu
    rw [failures_append, hlog, hlog']
    exact ⟨hw, rfl⟩
  tells ht := by
    have hfirst := h.tells ht
    rw [failures_append, hfirst]
    cases hu : u.error with
    | none =>
      rw [h'.tells hu, h.direction]
      rfl
    | some e =>
      obtain ⟨hw, hlog'⟩ := h'.stays e hu
      rw [hlog', hw]
      rfl

end Announced

/-- All that the act does to the stored error is announced. -/
def Act.Announces (act : Act σ α) : Prop :=
  ∀ t, Announced t (act t).log (act t).state

namespace Act

theorem announces_pure (a : α) : (pure a : Act σ α).Announces :=
  Announced.refl

theorem announces_check : (check : Act σ Unit).Announces :=
  Announced.refl

theorem announces_state : (state : Act σ (Traversal σ)).Announces :=
  Announced.refl

theorem announces_store : (store : Act σ σ).Announces :=
  Announced.refl

theorem announces_modifyStore (f : σ → σ) : (modifyStore f : Act σ Unit).Announces :=
  fun _ => .of_same_error rfl rfl rfl

theorem announces_report {e : Event} (h : e.failure? = none) :
    (report e : Act σ Unit).Announces :=
  fun _ => .of_same_error rfl rfl (by rw [report, failures, List.filterMap_cons_none h]; rfl)

/-- A failure is stored and announced, or it is neither. -/
theorem announces_fail (e : Error) : (fail e : Act σ α).Announces := by
  intro t
  rw [fail]
  cases ht : t.error with
  | some stored => exact .refl t
  | none =>
    refine ⟨rfl, ?_, fun _ => rfl⟩
    intro stored hstored
    rw [ht] at hstored
    cases hstored

theorem announces_require (x : Except Error α) : (require x : Act σ α).Announces := by
  cases x with
  | ok a => exact announces_pure a
  | error e => exact announces_fail e

theorem Announces.bind {act : Act σ α} {next : α → Act σ β} (h : act.Announces)
    (hnext : ∀ a, (next a).Announces) : (act >>= next).Announces := by
  intro t
  cases ha : (act t).result with
  | error e =>
    rw [bind_of_error ha]
    exact h t
  | ok a =>
    rw [bind_of_ok ha]
    exact (h t).trans (hnext a _)

theorem Announces.ite {p : Prop} [Decidable p] {act act' : Act σ α} (h : act.Announces)
    (h' : act'.Announces) : (if p then act else act').Announces := by
  by_cases hp : p
  · rwa [if_pos hp]
  · rwa [if_neg hp]

end Act

/-- A codec that announces every error that it stores. Where a run cannot begin, the error is
stored; where it can, none is. -/
class Codec.Announcing (σ : Type) [Codec σ] : Prop where
  visit : ∀ (kind : Kind) (name : String) (v : kind.Value),
    (Codec.visit kind name v : Act σ kind.Value).Announces
  close : (Codec.close : Act σ Unit).Announces
  openRun : (Codec.openRun : Act σ Unit).Announces
  closeRun : (Codec.closeRun : Act σ Unit).Announces
  openRun_tells : (Codec.openRun : Act σ Unit).Tells
  openRun_ok : ∀ t : Traversal σ, ((Codec.openRun : Act σ Unit) t).result = .ok () →
    ((Codec.openRun : Act σ Unit) t).state.error = t.error

/-! ### The codecs -/

namespace Encoder

theorem announces_put (data : Bytes) : (put data).Announces :=
  Act.announces_check.bind fun _ => Act.announces_store.bind fun _ =>
    (Act.announces_require _).bind fun _ => Act.announces_modifyStore _

theorem announces_putWord (name : String) (v : UInt32) : (putWord name v).Announces :=
  (announces_put _).bind fun _ => Act.announces_report rfl

theorem announces_putMeasured (name : String) (data : Bytes) :
    (putMeasured name data).Announces :=
  Act.announces_check.bind fun _ => (Act.announces_require _).bind fun n =>
    (announces_putWord name n).bind fun _ => announces_put data

theorem announces_putTerminated (name : String) (data : Bytes) :
    (putTerminated name data).Announces :=
  Act.announces_check.bind fun _ => .ite (Act.announces_fail _) (announces_put _)

theorem announces_write (kind : Kind) (name : String) (v : kind.Value) :
    (write kind name v).Announces := by
  cases kind with
  | u32 => exact announces_putWord name v
  | u16 | u8 | bool | fixed => exact (announces_put _).bind fun _ => Act.announces_report rfl
  | block flags =>
    exact Act.Announces.ite
      ((announces_putTerminated name _).bind fun _ => Act.announces_report rfl)
      ((announces_putMeasured name _).bind fun _ => Act.announces_report rfl)
  | text => exact (announces_putMeasured name _).bind fun _ => Act.announces_report rfl

theorem announces_putTrailer : putTrailer.Announces :=
  Act.announces_store.bind fun _ => (announces_put _).bind fun _ =>
    (Act.announces_modifyStore _).bind fun _ => Act.announces_report rfl

theorem announces_finish : finish.Announces :=
  Act.announces_state.bind fun _ => .ite (Act.announces_pure ()) announces_putTrailer

instance : Codec.Announcing Encoder where
  visit kind name v := (announces_write kind name v).bind fun _ => Act.announces_pure v
  close := Act.announces_pure ()
  openRun := Act.announces_modifyStore dropTrailer
  closeRun := announces_finish
  openRun_tells _ _ := nofun
  openRun_ok _ _ := rfl

end Encoder

namespace Decoder

theorem announces_take (cut : Cursor → Except Error (Bytes × Cursor)) : (take cut).Announces :=
  Act.announces_check.bind fun _ => Act.announces_store.bind fun _ =>
    (Act.announces_require _).bind fun _ => (Act.announces_modifyStore _).bind fun _ =>
      Act.announces_pure _

theorem announces_getWord (name : String) : (getWord name).Announces :=
  (announces_take _).bind fun _ => (Act.announces_report rfl).bind fun _ => Act.announces_pure _

theorem announces_getMeasured (name : String) : (getMeasured name).Announces :=
  (announces_getWord name).bind fun _ => announces_take _

theorem announces_read (kind : Kind) (name : String) (old : kind.Value) :
    (read kind name old).Announces := by
  cases kind with
  | u32 => exact announces_getWord name
  | u16 | u8 | bool | fixed =>
    exact (announces_take _).bind fun _ => (Act.announces_report rfl).bind fun _ =>
      Act.announces_pure _
  | block flags =>
    have hreport : ∀ bs : Bytes, (do
        saw name (.block bs.length (leading bs) (some (meets flags BlockFlags.owned)))
        pure (ByteBlock.ofBytes (meets flags BlockFlags.owned) bs) : Act Decoder _).Announces :=
      fun _ => (Act.announces_report rfl).bind fun _ => Act.announces_pure _
    exact Act.Announces.ite ((announces_take _).bind hreport)
      ((announces_getMeasured name).bind hreport)
  | text =>
    refine (announces_getMeasured name).bind fun bs => ?_
    cases ofUtf8? bs with
    | none => exact Act.announces_fail _
    | some s => exact (Act.announces_report rfl).bind fun _ => Act.announces_pure s

theorem announces_verify : verify.Announces :=
  Act.announces_store.bind fun _ => .ite (Act.announces_fail _)
    (.ite ((Act.announces_report rfl).bind fun _ => Act.announces_modifyStore _)
      (Act.announces_fail _))

theorem announces_prepare : prepare.Announces :=
  Act.announces_state.bind fun _ => .ite (Act.announces_pure ()) announces_verify

instance : Codec.Announcing Decoder where
  visit := announces_read
  close := Act.announces_pure ()
  openRun := announces_prepare
  closeRun := Act.announces_pure ()
  openRun_tells := prepare_tells
  openRun_ok _ h := (prepare_ok h).2

end Decoder

namespace Sizer

theorem announces_add (n : Nat) : (add n).Announces :=
  Act.announces_check.bind fun _ => Act.announces_modifyStore _

theorem announces_addMeasured (name : String) (n : Nat) : (addMeasured name n).Announces :=
  Act.announces_check.bind fun _ => (Act.announces_require _).bind fun _ => announces_add _

theorem announces_measure (kind : Kind) (name : String) (v : kind.Value) :
    (measure kind name v).Announces := by
  cases kind with
  | u32 | u16 | u8 | bool | fixed => exact announces_add _
  | block flags =>
    exact (Act.announces_report rfl).bind fun _ =>
      .ite (announces_add _) (announces_addMeasured name _)
  | text => exact announces_addMeasured name _

instance : Codec.Announcing Sizer where
  visit kind name v := (announces_measure kind name v).bind fun _ => Act.announces_pure v
  close := Act.announces_pure ()
  openRun := Act.announces_state.bind fun _ =>
    .ite (Act.announces_pure ()) (Act.announces_modifyStore _)
  closeRun := Act.announces_pure ()
  openRun_tells t e he := by
    rw [show (Codec.openRun : Act Sizer Unit) t = _ from countTrailer_eq t] at he
    cases he
  openRun_ok t _ := by
    rw [show (Codec.openRun : Act Sizer Unit) t = _ from countTrailer_eq t]

end Sizer

namespace Summer

theorem announces_feed (bs : Bytes) : (feed bs).Announces :=
  Act.announces_check.bind fun _ => Act.announces_modifyStore _

theorem announces_feedMeasured (name : String) (bs : Bytes) : (feedMeasured name bs).Announces :=
  Act.announces_check.bind fun _ => (Act.announces_require _).bind fun _ =>
    (announces_feed _).bind fun _ => announces_feed bs

theorem announces_absorb (kind : Kind) (name : String) (v : kind.Value) :
    (absorb kind name v).Announces := by
  cases kind with
  | u32 | u16 | u8 | bool | fixed => exact announces_feed _
  | block flags =>
    exact Act.Announces.ite
      ((announces_feed _).bind fun _ => (announces_feed _).bind fun _ => Act.announces_report rfl)
      ((announces_feedMeasured name _).bind fun _ => Act.announces_report rfl)
  | text => exact announces_feedMeasured name _

instance : Codec.Announcing Summer where
  visit kind name v := (announces_absorb kind name v).bind fun _ => Act.announces_pure v
  close := Act.announces_pure ()
  openRun := Act.announces_pure ()
  closeRun := Act.announces_pure ()
  openRun_tells := Act.tells_pure ()
  openRun_ok _ _ := rfl

end Summer

namespace KeyEncoder

theorem announces_put (data : Bytes) : (put data).Announces :=
  Act.announces_check.bind fun _ => Act.announces_store.bind fun _ =>
    (Act.announces_require _).bind fun _ => Act.announces_modifyStore _

theorem announces_putMeasured (name : String) (data : Bytes) :
    (putMeasured name data).Announces :=
  Act.announces_check.bind fun _ => (Act.announces_require _).bind fun _ =>
    (announces_put _).bind fun _ => announces_put data

theorem announces_write (kind : Kind) (name : String) (v : kind.Value) :
    (write kind name v).Announces := by
  cases kind with
  | u32 | u16 | u8 | bool | fixed => exact announces_put _
  | block flags => exact (announces_putMeasured name _).bind fun _ => Act.announces_report rfl
  | text => exact announces_putMeasured name _

theorem announces_putBorder : putBorder.Announces :=
  Act.announces_store.bind fun _ => .ite Act.announces_check (announces_put _)

instance : Codec.Announcing KeyEncoder where
  visit kind name v := (announces_write kind name v).bind fun _ => Act.announces_pure v
  close := announces_putBorder
  openRun := Act.announces_pure ()
  closeRun := Act.announces_pure ()
  openRun_tells := Act.tells_pure ()
  openRun_ok _ _ := rfl

end KeyEncoder

namespace KeyDecoder

theorem announces_take (n : Nat) : (take n).Announces :=
  Act.announces_check.bind fun _ => Act.announces_store.bind fun _ =>
    (Act.announces_require _).bind fun _ => (Act.announces_modifyStore _).bind fun _ =>
      Act.announces_pure _

theorem announces_getDigits (width : Nat) : (getDigits width).Announces := by
  refine Act.announces_store.bind fun _ => (announces_take _).bind fun digits => ?_
  cases Hex.decode digits with
  | error fault => exact Act.announces_fail _
  | ok bs => exact Act.announces_pure _

theorem announces_getMeasured : getMeasured.Announces :=
  (announces_getDigits 4).bind announces_take

theorem announces_read (kind : Kind) (name : String) (old : kind.Value) :
    (read kind name old).Announces := by
  cases kind with
  | u32 | u16 | u8 => exact (announces_getDigits _).bind fun _ => Act.announces_pure _
  | bool =>
    exact (announces_take 1).bind fun _ =>
      .ite (Act.announces_pure _) (.ite (Act.announces_pure _) (Act.announces_fail _))
  | fixed => exact announces_take _
  | block flags => exact announces_getMeasured.bind fun _ => Act.announces_pure _
  | text =>
    refine announces_getMeasured.bind fun bs => ?_
    cases ofUtf8? bs with
    | none => exact Act.announces_fail _
    | some s => exact Act.announces_pure s

theorem announces_skipBorder : skipBorder.Announces :=
  Act.announces_store.bind fun _ => (announces_take _).bind fun _ => Act.announces_pure ()

instance : Codec.Announcing KeyDecoder where
  visit := announces_read
  close := announces_skipBorder
  openRun := Act.announces_pure ()
  closeRun := Act.announces_pure ()
  openRun_tells := Act.tells_pure ()
  openRun_ok _ _ := rfl

end KeyDecoder

namespace Dump

theorem announces_put (kind : Kind) (name : String) (v : kind.Value) :
    (put kind name v).Announces :=
  Act.announces_check.bind fun _ => Act.announces_state.bind fun _ => Act.announces_modifyStore _

instance : Codec.Announcing Dump where
  visit kind name v := (announces_put kind name v).bind fun _ => Act.announces_pure v
  close := Act.announces_pure ()
  openRun := Act.announces_modifyStore continued
  closeRun := Act.announces_modifyStore trimmed
  openRun_tells _ _ := nofun
  openRun_ok _ _ := rfl

end Dump

/-! ### Records that take no error back -/

mutual

/-- The field takes no error back. -/
def Field.keepsErrors : Field → Bool
  | .leaf _ _ _ | .signed _ _ _ | .failing _ | .raising _ | .watching _ => true
  | .recovering _ => false
  | .nested _ body | .guarded _ body => body.keepsErrors
  | .sequence _ items item => itemsKeepErrors items && item.keepsErrors

/-- The record takes no error back. -/
def Record.keepsErrors : Record → Bool
  | .strict fields | .lenient fields _ => fieldsKeepErrors fields

/-- No field takes an error back. -/
def fieldsKeepErrors : List Field → Bool
  | [] => true
  | f :: fs => f.keepsErrors && fieldsKeepErrors fs

/-- No item takes an error back. -/
def itemsKeepErrors : List Record → Bool
  | [] => true
  | r :: rs => r.keepsErrors && itemsKeepErrors rs

end

/-! ### Visits of single parts -/

/-- All that the visit does to the stored error is announced. -/
def VisitAnnounces (visit : Traversal σ → Visited σ α) : Prop :=
  ∀ t, Announced t (visit t).log (visit t).state

theorem Visited.followedBy_announced {t : Traversal σ} {v : Visited σ α} {act : Act σ Unit}
    (hv : Announced t v.log v.state) (h : act.Announces) :
    Announced t (v.followedBy act).log (v.followedBy act).state := by
  rw [followedBy]
  cases v.result with
  | error e => exact hv
  | ok u => exact hv.trans (h v.state)

theorem visitCopies_announced {item : Traversal σ → Visited σ Record} (h : VisitAnnounces item)
    (n : Nat) : VisitAnnounces (visitCopies item n) := by
  induction n with
  | zero => exact Announced.refl
  | succ n ih =>
    intro t
    rw [visitCopies]
    cases (item t).result with
    | error e => exact h t
    | ok u => exact (h t).trans (ih _)

section

variable [Codec σ]

theorem visitLeaf_announced [Codec.Announcing σ] (kind : Kind) (name : String) (v : kind.Value) :
    VisitAnnounces (σ := σ) (visitLeaf kind name v) := by
  intro t
  have hseen := Codec.Announcing.visit kind name v t
  rw [visitLeaf]
  cases (Codec.visit kind name v t).result with
  | error e => exact hseen
  | ok new => exact Visited.followedBy_announced hseen Codec.Announcing.close

theorem visitSigned_announced [Codec.Announcing σ] (w : Signed) (name : String) (v : w.Value) :
    VisitAnnounces (σ := σ) (visitSigned w name v) := by
  intro t
  have hleaf := visitLeaf_announced w.carrier name (w.toCarrier v) t
  rw [visitSigned]
  cases (visitLeaf w.carrier name (w.toCarrier v) t).result <;> exact hleaf

theorem visitNested_announced [Codec.Announcing σ] {fields : Traversal σ → Visited σ Record}
    (h : VisitAnnounces fields) (r : Record) : VisitAnnounces (visitNested fields r) := by
  intro t
  rw [visitNested]
  cases t.error with
  | some e => exact .refl t
  | none => exact Visited.followedBy_announced (h t) Codec.Announcing.close

theorem decodeItems_announced {item : Traversal σ → Visited σ Record} (h : VisitAnnounces item)
    (count : Nat) : VisitAnnounces (decodeItems item count) := by
  intro t
  rw [decodeItems]
  cases shortage count t with
  | some left => exact Act.announces_fail (α := Unit) _ t
  | none => exact visitCopies_announced h count t

/-! ### Visits of records -/

mutual

theorem Field.visit_announced [Codec.Announcing σ] : ∀ {f : Field}, f.keepsErrors →
    VisitAnnounces (σ := σ) f.visit
  | .leaf name kind v, _, t => visitLeaf_announced kind name v t
  | .signed name w v, _, t => visitSigned_announced w name v t
  | .nested name body, h, t =>
    visitNested_announced (Record.visit_announced (r := body) h) body t
  | .sequence name items item, h, t => by
    rw [Field.keepsErrors, Bool.and_eq_true] at h
    have hcount := visitLeaf_announced .u32 name (UInt32.ofNat items.length) t
    have hitem := visitNested_announced (σ := σ) (Record.visit_announced h.2) item
    rw [Field.visit]
    cases (visitLeaf .u32 name (UInt32.ofNat items.length) t).result with
    | error e => exact hcount
    | ok u =>
      cases (visitLeaf .u32 name (UInt32.ofNat items.length) t).state.direction with
      | decode => exact hcount.trans (decodeItems_announced hitem _ _)
      | encode | inspect => exact hcount.trans (visitItems_announced h.1 _)
  | .guarded guard body, h, t => by
    rw [Field.visit]
    by_cases hguard : guard.holds t
    · rw [if_pos hguard]
      exact Record.visit_announced (r := body) h t
    · rw [if_neg hguard]
      exact .refl t
  | .failing e, _, t => Act.announces_fail (α := Unit) e t
  | .raising _, _, t => .refl t
  | .watching _, _, t => .refl t

/-- **All that a visit does to the stored error** is in its trace. -/
theorem Record.visit_announced [Codec.Announcing σ] : ∀ {r : Record}, r.keepsErrors →
    VisitAnnounces (σ := σ) r.visit
  | .strict _, h, t => visitFields_announced h t
  | .lenient _ _, h, t => visitEach_announced h t

theorem visitFields_announced [Codec.Announcing σ] : ∀ {fs : List Field}, fieldsKeepErrors fs →
    VisitAnnounces (σ := σ) (visitFields fs)
  | [], _, t => .refl t
  | f :: fs, h, t => by
    rw [fieldsKeepErrors, Bool.and_eq_true] at h
    have hfirst := Field.visit_announced h.1 t
    rw [visitFields]
    cases (f.visit t).result with
    | error e => exact hfirst
    | ok u => exact hfirst.trans (visitFields_announced h.2 _)

theorem visitEach_announced [Codec.Announcing σ] : ∀ {fs : List Field}, fieldsKeepErrors fs →
    VisitAnnounces (σ := σ) (visitEach fs)
  | [], _, t => .refl t
  | f :: fs, h, t => by
    rw [fieldsKeepErrors, Bool.and_eq_true] at h
    rw [visitEach]
    exact (Field.visit_announced h.1 t).trans (visitEach_announced h.2 _)

theorem visitItems_announced [Codec.Announcing σ] : ∀ {rs : List Record}, itemsKeepErrors rs →
    VisitAnnounces (σ := σ) (visitItems rs)
  | [], _, t => .refl t
  | r :: rs, h, t => by
    rw [itemsKeepErrors, Bool.and_eq_true] at h
    have hfirst := visitNested_announced (Record.visit_announced h.1) r t
    rw [visitItems]
    cases (visitNested r.visit r t).result with
    | error e => exact hfirst
    | ok u => exact hfirst.trans (visitItems_announced h.2 _)

end

end

end RecordCodec
