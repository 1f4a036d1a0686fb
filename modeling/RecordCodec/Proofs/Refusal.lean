import RecordCodec.Conversion
import RecordCodec.Proofs.Encodable
import RecordCodec.Step

/-!
# Refusals

Once an error is stored, a traversal refuses whatever is begun: it answers with the stored error,
and nothing else happens. For a codec this is a matter of order. Each of its acts has to check the
stored error before it touches its memory, and the check is in another place in every codec: a
dump checks before its label, a sizer before it counts, a key decoder only after it has looked up
the length of its border.

Nothing is said here of how the state came about. A traversal that met an error in the middle of a
field refuses in the same way as one that was told to fail from outside.

That records are not even asked for their fields is said by leaving open what they would do
(`runWith`, `visitNested`, `visitSequence`): the answer is the same for every way to visit a record,
and for every way to visit the items of a sequence.

## Main definitions

* `Act.Refuses`, `Codec.Refusing` — an act that fails with the stored error, and a codec of such.
* `runWith`, `visitSequence` — a run, given the visit of its record, and a sequence, given the
  visits of its items.
* `Step.isAttempt`, `Step.refusal` — the steps that can be refused, and the answers they get then.
* `Shut` — everything that is begun in the state is refused.

## Main results

* `shut_of_error` — a state with an error is shut, for every codec that refuses.
* `codecs_shut` — all seven codecs do.
-/

namespace RecordCodec

variable {σ α β : Type}

/-! ### Acts -/

/-- Where an error is stored, the act fails with it and leaves the state alone. -/
def Act.Refuses (act : Act σ α) : Prop :=
  ∀ t e, t.error = some e → (act t).result = .error e ∧ (act t).state = t

namespace Act

theorem refuses_check : (check : Act σ Unit).Refuses := by
  intro t e ht
  refine ⟨?_, rfl⟩
  show t.check = .error e
  rw [Traversal.check, ht]

theorem refuses_fail (e : Error) : (fail e : Act σ α).Refuses := by
  intro t stored ht
  rw [fail, ht]
  exact ⟨rfl, rfl⟩

/-- What would come after a refusal is not begun. -/
theorem Refuses.bind {act : Act σ α} (h : act.Refuses) (next : α → Act σ β) :
    (act >>= next).Refuses := by
  intro t e ht
  obtain ⟨hresult, hstate⟩ := h t e ht
  rw [bind_of_error hresult]
  exact ⟨rfl, hstate⟩

/-- An act that refuses may be preceded by one that only looks at the state. -/
theorem Refuses.after {act : Act σ α} {next : α → Act σ β}
    (hact : ∀ t, ∃ a, (act t).result = .ok a ∧ (act t).state = t)
    (h : ∀ a, (next a).Refuses) : (act >>= next).Refuses := by
  intro t e ht
  obtain ⟨a, hresult, hstate⟩ := hact t
  rw [bind_of_ok hresult, hstate]
  exact h a t e ht

theorem Refuses.after_store {next : σ → Act σ α} (h : ∀ m, (next m).Refuses) :
    (store >>= next).Refuses :=
  .after (fun t => ⟨t.store, rfl, rfl⟩) h

theorem Refuses.after_report {next : Act σ α} (e : Event) (h : next.Refuses) :
    (report e >>= fun _ => next).Refuses :=
  .after (fun _ => ⟨(), rfl, rfl⟩) fun _ => h

/-- Whichever of two acts is chosen. -/
theorem Refuses.ite {p : Bool} {act act' : Act σ α} (h : act.Refuses)
    (h' : act'.Refuses) : (if p then act else act').Refuses := by
  by_cases hp : p
  · rwa [if_pos hp]
  · rwa [if_neg hp]

end Act

/-- A codec that visits no leaf while an error is stored. -/
class Codec.Refusing (σ : Type) [Codec σ] : Prop where
  visit_refuses : ∀ (kind : Kind) (name : String) (v : kind.Value),
    (Codec.visit (σ := σ) kind name v).Refuses

/-! ### The codecs -/

namespace Encoder

theorem refuses_put (data : Bytes) : (put data).Refuses :=
  Act.refuses_check.bind _

theorem refuses_write (kind : Kind) (name : String) (v : kind.Value) :
    (write kind name v).Refuses := by
  cases kind with
  | u32 | u16 | u8 | bool | fixed => exact (refuses_put _).bind _
  | block flags =>
    have hbytes : (putTerminated name v.toBytes).Refuses := Act.refuses_check.bind _
    have hmeasured : (putMeasured name v.toBytes).Refuses := Act.refuses_check.bind _
    exact Act.Refuses.ite (hbytes.bind _) (hmeasured.bind _)
  | text =>
    have hmeasured : (putMeasured name (utf8 v)).Refuses := Act.refuses_check.bind _
    exact hmeasured.bind _

instance : Codec.Refusing Encoder where
  visit_refuses kind name v := (refuses_write kind name v).bind _

end Encoder

namespace Decoder

theorem refuses_take (cut : Cursor → Except Error (Bytes × Cursor)) : (take cut).Refuses :=
  Act.refuses_check.bind _

theorem refuses_getMeasured (name : String) : (getMeasured name).Refuses := by
  have hword : (getWord name).Refuses := (refuses_take _).bind _
  exact hword.bind _

instance : Codec.Refusing Decoder where
  visit_refuses kind name v := by
    cases kind with
    | u32 | u16 | u8 | bool | fixed => exact (refuses_take _).bind _
    | block flags =>
      exact Act.Refuses.ite ((refuses_take _).bind _) ((refuses_getMeasured name).bind _)
    | text => exact (refuses_getMeasured name).bind _

end Decoder

namespace Sizer

theorem refuses_add (n : Nat) : (add n).Refuses :=
  Act.refuses_check.bind _

theorem refuses_addMeasured (name : String) (n : Nat) : (addMeasured name n).Refuses :=
  Act.refuses_check.bind _

/-- A block is reported before the error is seen. -/
theorem refuses_measure (kind : Kind) (name : String) (v : kind.Value) :
    (measure kind name v).Refuses := by
  cases kind with
  | u32 | u16 | u8 | bool | fixed => exact refuses_add _
  | block flags =>
    exact Act.Refuses.after_report _ (.ite (refuses_add _) (refuses_addMeasured name _))
  | text => exact refuses_addMeasured name _

instance : Codec.Refusing Sizer where
  visit_refuses kind name v := (refuses_measure kind name v).bind _

end Sizer

namespace Summer

theorem refuses_feed (bs : Bytes) : (feed bs).Refuses :=
  Act.refuses_check.bind _

theorem refuses_feedMeasured (name : String) (bs : Bytes) : (feedMeasured name bs).Refuses :=
  Act.refuses_check.bind _

theorem refuses_absorb (kind : Kind) (name : String) (v : kind.Value) :
    (absorb kind name v).Refuses := by
  cases kind with
  | u32 | u16 | u8 | bool | fixed => exact refuses_feed _
  | block flags =>
    exact Act.Refuses.ite ((refuses_feed _).bind _) ((refuses_feedMeasured name _).bind _)
  | text => exact refuses_feedMeasured name _

instance : Codec.Refusing Summer where
  visit_refuses kind name v := (refuses_absorb kind name v).bind _

end Summer

namespace KeyEncoder

theorem refuses_put (data : Bytes) : (put data).Refuses :=
  Act.refuses_check.bind _

theorem refuses_putMeasured (name : String) (data : Bytes) : (putMeasured name data).Refuses :=
  Act.refuses_check.bind _

theorem refuses_write (kind : Kind) (name : String) (v : kind.Value) :
    (write kind name v).Refuses := by
  cases kind with
  | u32 | u16 | u8 | bool | fixed => exact refuses_put _
  | block flags => exact (refuses_putMeasured name _).bind _
  | text => exact refuses_putMeasured name _

instance : Codec.Refusing KeyEncoder where
  visit_refuses kind name v := (refuses_write kind name v).bind _

end KeyEncoder

namespace KeyDecoder

theorem refuses_take (n : Nat) : (take n).Refuses :=
  Act.refuses_check.bind _

theorem refuses_getDigits (width : Nat) : (getDigits width).Refuses :=
  .after_store fun _ => (refuses_take _).bind _

theorem refuses_getMeasured : getMeasured.Refuses :=
  (refuses_getDigits 4).bind _

instance : Codec.Refusing KeyDecoder where
  visit_refuses kind name v := by
    cases kind with
    | u32 | u16 | u8 => exact (refuses_getDigits _).bind _
    | bool => exact (refuses_take 1).bind _
    | fixed => exact refuses_take _
    | block flags | text => exact refuses_getMeasured.bind _

end KeyDecoder

instance : Codec.Refusing Dump where
  visit_refuses kind name v := by
    have hput : (Dump.put kind name v).Refuses := Act.refuses_check.bind _
    exact hput.bind _

/-! ### Visits -/

/-- The visit gives the error, and leaves its value and the state alone. -/
structure Visited.Refused (e : Error) (a : α) (t : Traversal σ) (v : Visited σ α) : Prop where
  result : v.result = .error e
  value : v.value = a
  state : v.state = t

/-- What is refused stays refused as a part of something else. -/
theorem Visited.Refused.map {e : Error} {a : α} {t : Traversal σ} {v : Visited σ α}
    (h : v.Refused e a t) (f : α → β) : (v.map f).Refused e (f a) t :=
  ⟨h.result, congrArg f h.value, h.state⟩

variable [Codec σ]

/-- Takes one record through a codec, given the visit of the record. -/
def runWith (serialize : Traversal σ → Visited σ Record) (r : Record) (t : Traversal σ) :
    Visited σ Record :=
  match t.error with
  | some e => ⟨.error e, r, t, []⟩
  | none =>
    let opened := (Codec.openRun : Act σ Unit) t
    match opened.result with
    | .error e => ⟨.error e, r, opened.state, opened.log⟩
    | .ok () =>
      let body := serialize opened.state
      let settled := settle body.result body.state
      let closed := (Codec.closeRun : Act σ Unit) settled.state
      ⟨closed.state.check, body.value, closed.state,
        opened.log ++ body.log ++ settled.log ++ closed.log⟩

theorem run_eq_runWith (r : Record) : (run r : Traversal σ → Visited σ Record) =
    runWith r.visit r := rfl

/-- Visits a sequence, given the visit of its items, and the visit of those that take their place
when the sequence is decoded, for each count. -/
def visitSequence (visitOld : Traversal σ → Visited σ (List Record))
    (visitNew : Nat → Traversal σ → Visited σ (List Record)) (name : String) (items : List Record)
    (blank : Record) (t : Traversal σ) : Visited σ Field :=
  let count := visitLeaf .u32 name (UInt32.ofNat items.length) t
  match count.result with
  | .error e => ⟨.error e, .sequence name items blank, count.state, count.log⟩
  | .ok () =>
    let rest := match count.state.direction with
      | .decode => visitNew count.value.toNat count.state
      | _ => visitOld count.state
    ⟨rest.result, .sequence name rest.value blank, rest.state, count.log ++ rest.log⟩

theorem visit_eq_visitSequence (name : String) (items : List Record) (blank : Record)
    (t : Traversal σ) :
    (Field.sequence name items blank).visit t =
      visitSequence (visitItems items) (decodeItems (visitNested blank.visit blank)) name items
        blank t := by
  rw [Field.visit]
  rfl

section

variable [Codec.Refusing σ] {t : Traversal σ} {e : Error} (ht : t.error = some e)

include ht

theorem refused_leaf (kind : Kind) (name : String) (v : kind.Value) :
    (visitLeaf kind name v t).Refused e v t := by
  obtain ⟨hresult, hstate⟩ := Codec.Refusing.visit_refuses kind name v t e ht
  rw [visitLeaf]
  simp only [hresult]
  exact ⟨rfl, rfl, hstate⟩

theorem refused_signed (w : Signed) (name : String) (v : w.Value) :
    (visitSigned w name v t).Refused e v t := by
  have hleaf := refused_leaf ht w.carrier name (w.toCarrier v)
  rw [visitSigned]
  simp only [hleaf.result]
  exact ⟨rfl, rfl, hleaf.state⟩

/-- The count of a sequence is refused, and its items are not come to. -/
theorem refused_sequence (visitOld : Traversal σ → Visited σ (List Record))
    (visitNew : Nat → Traversal σ → Visited σ (List Record)) (name : String) (items : List Record)
    (blank : Record) :
    (visitSequence visitOld visitNew name items blank t).Refused e (.sequence name items blank)
      t := by
  have hcount := refused_leaf ht .u32 name (UInt32.ofNat items.length)
  rw [visitSequence]
  simp only [hcount.result]
  exact ⟨rfl, rfl, hcount.state⟩

omit [Codec.Refusing σ] in
theorem visitNested_of_error (serialize : Traversal σ → Visited σ Record) (r : Record) :
    visitNested serialize r t = ⟨.error e, r, t, []⟩ := by
  rw [visitNested, ht]

omit [Codec.Refusing σ] in
theorem runWith_of_error (serialize : Traversal σ → Visited σ Record) (r : Record) :
    runWith serialize r t = ⟨.error e, r, t, []⟩ := by
  simp only [runWith, ht]

end

/-! ### Histories -/

/-- The field is one that a codec is called for, and not what a record does of its own. -/
def Field.isCall : Field → Bool
  | .leaf _ _ _ | .signed _ _ _ | .nested _ _ | .sequence _ _ _ => true
  | .guarded _ _ | .failing _ | .raising _ | .recovering _ | .watching _ => false

theorem Field.isCall_of_isData {f : Field} (h : f.isData) : f.isCall := by
  cases f with
  | leaf | signed | nested | sequence => rfl
  | guarded | failing | raising | recovering | watching => cases h

namespace Step

/-- The step tries to get on, or to store another error. -/
def isAttempt : Step → Bool
  | .run _ | .fail _ => true
  | .visit f => f.isCall
  | .takeError | .rewind => false

/-- What a step answers where the error is stored. -/
def refusal (e : Error) : Step → Reply
  | .run r => .ran (.error e) r
  | .visit f => .visited (.error e) f
  | .fail _ => .failed (.error e)
  | .takeError => .took (some e)
  | .rewind => .rewound

end Step

/-- Everything that is begun in the state gives the error, and changes neither the state nor the
value that it was begun with. No record is asked for its fields. -/
structure Shut (t : Traversal σ) (e : Error) : Prop where
  leaf : ∀ (kind : Kind) (name : String) (v : kind.Value), (visitLeaf kind name v t).Refused e v t
  signed : ∀ (w : Signed) (name : String) (v : w.Value), (visitSigned w name v t).Refused e v t
  nested : ∀ (serialize : Traversal σ → Visited σ Record) (r : Record),
    visitNested serialize r t = ⟨.error e, r, t, []⟩
  sequence : ∀ (visitOld : Traversal σ → Visited σ (List Record))
    (visitNew : Nat → Traversal σ → Visited σ (List Record)) (name : String) (items : List Record)
    (blank : Record),
    (visitSequence visitOld visitNew name items blank t).Refused e (.sequence name items blank) t
  run : ∀ (serialize : Traversal σ → Visited σ Record) (r : Record),
    runWith serialize r t = ⟨.error e, r, t, []⟩
  history : ∀ steps : List Step, (∀ step ∈ steps, step.isAttempt) →
    (performAll steps t).1 = steps.map (Step.refusal e) ∧ (performAll steps t).2.1 = t

section

variable [Codec.Refusing σ] {t : Traversal σ} {e : Error} (ht : t.error = some e)

include ht

theorem refused_call {f : Field} (hf : f.isCall) : (f.visit t).Refused e f t := by
  cases f with
  | leaf name kind v =>
    rw [Field.visit]
    exact (refused_leaf ht kind name v).map _
  | signed name w v =>
    rw [Field.visit]
    exact (refused_signed ht w name v).map _
  | nested name body =>
    rw [Field.visit, visitNested_of_error ht]
    exact ⟨rfl, rfl, rfl⟩
  | sequence name items blank =>
    rw [visit_eq_visitSequence]
    exact refused_sequence ht _ _ name items blank
  | guarded | failing | raising | recovering | watching => exact absurd hf Bool.false_ne_true

/-- **One step** that is refused. -/
theorem perform_attempt {step : Step} (hstep : step.isAttempt) :
    (step.perform t).reply = step.refusal e ∧ (step.perform t).state = t := by
  cases step with
  | run r =>
    rw [Step.perform, run_eq_runWith, runWith_of_error ht]
    exact ⟨rfl, rfl⟩
  | visit f =>
    have hrefused := refused_call ht (f := f) hstep
    rw [Step.perform, Step.refusal, hrefused.result, hrefused.value]
    exact ⟨rfl, hrefused.state⟩
  | fail e' =>
    obtain ⟨hresult, hstate⟩ := Act.refuses_fail (α := Unit) e' t e ht
    rw [Step.perform, Step.refusal, hresult]
    exact ⟨rfl, hstate⟩
  | takeError | rewind => exact absurd hstep Bool.false_ne_true

/-- **Any number of steps** are refused, one as the other. -/
theorem performAll_attempts (steps : List Step) (hsteps : ∀ step ∈ steps, step.isAttempt) :
    (performAll steps t).1 = steps.map (Step.refusal e) ∧ (performAll steps t).2.1 = t := by
  induction steps with
  | nil => exact ⟨rfl, rfl⟩
  | cons step steps ih =>
    obtain ⟨hreply, hstate⟩ := perform_attempt ht (hsteps step List.mem_cons_self)
    obtain ⟨hreplies, hstates⟩ := ih fun s hs => hsteps s (List.mem_cons_of_mem step hs)
    simp only [performAll, hstate, hreply, hreplies, hstates, List.map_cons, and_self]

/-- **A state with an error is shut.** -/
theorem shut_of_error : Shut t e where
  leaf := refused_leaf ht
  signed := refused_signed ht
  nested := visitNested_of_error ht
  sequence := refused_sequence ht
  run := runWith_of_error ht
  history := performAll_attempts ht

end

/-- Every state of the codec that has an error stored is shut. -/
def Codec.IsSticky (σ : Type) [Codec σ] : Prop :=
  ∀ (t : Traversal σ) (e : Error), t.error = some e → Shut t e

/-- **All codecs are sticky.** Once an error is stored, whatever is begun gives that error, asks no
record for its fields, and changes nothing. -/
theorem codecs_shut :
    Codec.IsSticky Encoder ∧ Codec.IsSticky Decoder ∧ Codec.IsSticky Sizer ∧
      Codec.IsSticky Summer ∧ Codec.IsSticky KeyEncoder ∧ Codec.IsSticky KeyDecoder ∧
      Codec.IsSticky Dump :=
  ⟨fun _ _ => shut_of_error, fun _ _ => shut_of_error, fun _ _ => shut_of_error,
    fun _ _ => shut_of_error, fun _ _ => shut_of_error, fun _ _ => shut_of_error,
    fun _ _ => shut_of_error⟩

/-- An encoder whose sink has no room for the first number. -/
theorem codecs_shut_full_sink :
    Shut (performAll [.run Record.specimen]
      (Encoder.start .network 0 (Sink.empty (some 3)))).2.1 (.outOfMemory 4) :=
  codecs_shut.1 _ _ rfl

end RecordCodec
