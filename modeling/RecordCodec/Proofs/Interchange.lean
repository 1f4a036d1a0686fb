import RecordCodec.Proofs.Binary.Framing
import RecordCodec.Proofs.History
import RecordCodec.Proofs.Key.Encoding
import RecordCodec.Proofs.Refusal
import RecordCodec.Proofs.Sink.Twin

/-!
# One kind of sink for the other

Whoever encodes into storage of a given size may as well encode into a growable sink with this size
for its limit. Whatever is encoded, by however many traversals one after another, the committed
bytes are the same after every step, and so are the answers, but for the words in which a sink
refuses.

This is more than that both kinds of sink take the same bytes. A fixed sink hands out what was in
its storage before, a growable one zeros; a trailer is taken off and written again; errors are taken
away, and the traversal goes on where the refused write left the sink.

## Main definitions

* `Snapshot` — a step's answer and the committed bytes after it.
* `Job` — a traversal that writes into a sink, with its history.
* `serveAll` — jobs that are done one after another on the same sink.
* `Codec.Twinned` — the codec's acts lead from twins to twins.

## Main results

* `Step.perform_twin`, `performEach_twin` — one step, and a history.
* `sinks_interchangeable` — jobs on a fixed sink and on a growable one.
-/

namespace RecordCodec

open HoldsSink

/-! ### Answers -/

namespace Reply

/-- The answer with the errors of the growable twin, where `length` bytes are committed. -/
def twin (length : Nat) : Reply → Reply
  | .ran result r => .ran (result.mapError (Error.twin length)) r
  | .visited result f => .visited (result.mapError (Error.twin length)) f
  | .took e => .took (e.map (Error.twin length))
  | .failed result => .failed (result.mapError (Error.twin length))
  | .rewound => .rewound

/-- The two succeed together. -/
theorem succeeded_twin (length : Nat) (reply : Reply) :
    (reply.twin length).succeeded = reply.succeeded := by
  cases reply with
  | ran result | visited result | failed result => cases result <;> rfl
  | took | rewound => rfl

end Reply

/-- A step's answer, and the committed bytes after it. -/
structure Snapshot where
  reply : Reply
  committed : Bytes

/-- The snapshot on the growable twin: the same bytes, and the same answer but for a refusal. -/
def Snapshot.twin (s : Snapshot) : Snapshot :=
  ⟨s.reply.twin s.committed.length, s.committed⟩

/-! ### Jobs -/

/-- A step's answer, and what it left in the sink. -/
def Stepped.snapshot {σ : Type} [HoldsSink σ] (s : Stepped σ) : Snapshot :=
  ⟨s.reply, (sink s.state.store).committed⟩

/-- Does steps one after another, with a snapshot after each. -/
def performEach {σ : Type} [Codec σ] [HoldsSink σ] :
    List Step → Traversal σ → List Snapshot × Traversal σ
  | [], t => ([], t)
  | s :: ss, t =>
    let first := s.perform t
    let others := performEach ss first.state
    (first.snapshot :: others.1, others.2)

/-- A traversal that writes into a sink, with its history. -/
inductive Job where
  | binary (context : Context) (options : Mask) (steps : List Step)
  | key (border : Option String) (steps : List Step)

/-- Does a job on a sink. -/
def Job.serve : Job → Sink → List Snapshot × Sink
  | .binary context options steps, s =>
    let done := performEach steps (Encoder.start context options s)
    (done.1, done.2.store.sink)
  | .key border steps, s =>
    let done := performEach steps (KeyEncoder.start border s)
    (done.1, done.2.store.sink)

/-- Does jobs one after another on the same sink. -/
def serveAll : List Job → Sink → List Snapshot × Sink
  | [], s => ([], s)
  | job :: jobs, s =>
    let first := job.serve s
    let others := serveAll jobs first.2
    (first.1 ++ others.1, others.2)

/-- A value that memory can hold. -/
def Kind.isStorable : (k : Kind) → k.Value → Bool
  | .fixed, bs => bs.length ≤ maxLength
  | .block _, b => b.length ≤ maxLength
  | .text, s => (utf8 s).length ≤ maxLength
  | .u32, _ | .u16, _ | .u8, _ | .bool, _ => true

/-- A stop with a value that memory can hold. -/
def Stop.isStorable : Stop → Bool
  | .leaf l => l.kind.isStorable l.value
  | .close => true

/-- A run of data, a visit of data, or the stored error taken away. -/
def Step.isOrdinary : Step → Bool
  | .run r => r.isData && r.stops.all Stop.isStorable
  | .visit f => f.isData && f.stops.all Stop.isStorable
  | .takeError => true
  | .fail _ | .rewind => false

/-- All steps are ordinary, and memory can hold the border. -/
def Job.isOrdinary : Job → Bool
  | .binary _ _ steps => steps.all Step.isOrdinary
  | .key border steps =>
    (borderBytes border).length ≤ maxLength && steps.all Step.isOrdinary

/-! ### Visits and runs -/

section

variable {σ α : Type} [HoldsSink σ] {capacity : Nat} {fit : σ → Prop} {t : Traversal σ}

/-- The second visit is the twin of the first. -/
structure Visited.Twins (capacity : Nat) (fit : σ → Prop) (v v' : Visited σ α) : Prop where
  kept : OverStorage capacity fit v.state
  state : v'.state = v.state.twin
  result : v'.result = v.result.mapError (Error.twin (sink v.state.store).length)
  value : v'.value = v.value
  tells : ∀ e, v.result = .error e → v.state.error = some e

variable [Codec σ]

/-- A codec whose acts lead from twins to twins. A run begins without failure. -/
structure Codec.Twinned (capacity : Nat) (fit : σ → Prop) : Prop where
  perform : ∀ s : Stop, s.isStorable → (s.perform : Act σ Unit).HasTwin capacity fit
  openRun : ∀ t : Traversal σ, t.error = none → OverStorage capacity fit t →
    ∃ opened : Traversal σ, OverStorage capacity fit opened ∧ opened.error = none ∧
      (Codec.openRun : Act σ Unit) t = ⟨.ok (), opened, []⟩ ∧
      (Codec.openRun : Act σ Unit) t.twin = ⟨.ok (), opened.twin, []⟩
  closeRun : (Codec.closeRun : Act σ Unit).HasTwin capacity fit

section

variable (law : Codec.Twinned capacity fit) (ht : OverStorage capacity fit t)

include law ht

theorem walk_twin {ss : List Stop} (hstops : ss.all Stop.isStorable) :
    (walk ss t).Twins capacity fit (walk ss t.twin) :=
  walk_hasTwin (fun s hs => law.perform s (List.all_eq_true.mp hstops s hs)) t ht

theorem Field.visit_twin [Codec.Observing σ] [Codec.Refusing σ] {f : Field} (hf : f.isData)
    (hstops : f.stops.all Stop.isStorable) :
    (f.visit t).Twins capacity fit (f.visit t.twin) := by
  have hdir : t.direction ≠ .decode := by
    rw [ht.encodes]
    nofun
  cases herror : t.error with
  | none =>
    have hwalk := walk_twin law ht hstops
    rw [Field.visit_eq_walk hf herror hdir,
      Field.visit_eq_walk hf (Traversal.error_twin_of_none herror) hdir]
    exact ⟨hwalk.kept, hwalk.state, hwalk.result, rfl,
      fun _ he => (walk_faithful f.stops).error_of_error herror he⟩
  | some e =>
    have hcall := Field.isCall_of_isData hf
    have hrefused := refused_call herror hcall
    have hrefused' := refused_call (Traversal.error_twin_of_some herror) hcall
    refine ⟨?_, ?_, ?_, ?_, ?_⟩
    · rwa [hrefused.state]
    · rw [hrefused'.state, hrefused.state]
    · rw [hrefused'.result, hrefused.result, hrefused.state]
      rfl
    · rw [hrefused'.value, hrefused.value]
    · intro e' he
      rw [hrefused.result] at he
      rw [hrefused.state, herror, Except.error.inj he]

theorem run_twin [Codec.Observing σ] {r : Record} (hr : r.isData)
    (hstops : r.stops.all Stop.isStorable) :
    (run r t).Twins capacity fit (run r t.twin) := by
  cases herror : t.error with
  | some e =>
    rw [run_of_error herror, run_of_error (Traversal.error_twin_of_some herror)]
    refine ⟨ht, rfl, rfl, rfl, ?_⟩
    intro e' he
    rw [herror, Except.error.inj he]
  | none =>
    have herror' := Traversal.error_twin_of_none herror
    obtain ⟨opened, hopened, hclean, hopen, hopen'⟩ := law.openRun t herror ht
    have hdir : opened.direction ≠ .decode := by
      rw [hopened.encodes]
      nofun
    obtain ⟨hresult, hvalue, hstate⟩ := run_eq_walk hr herror hopen hclean hdir
    obtain ⟨hresult', hvalue', hstate'⟩ :=
      run_eq_walk hr herror' hopen' (Traversal.error_twin_of_none hclean) hdir
    have hwalk := walk_twin law hopened hstops
    have hclosed := law.closeRun _ hwalk.kept
    have hsame : (run r t.twin).state = (run r t).state.twin := by
      rw [hstate', hwalk.state, hclosed.state, hstate]
    refine ⟨?_, hsame, ?_, ?_, ?_⟩
    · rw [hstate]
      exact hclosed.kept
    · rw [hresult', hresult, hsame, Traversal.check_twin]
    · rw [hvalue', hvalue]
    · intro e he
      rw [hresult] at he
      exact Traversal.error_of_check he

end

/-! ### Histories -/

/-- A refusal in the answer says what is left, and that it is not enough. -/
def Snapshot.IsHonest (capacity : Nat) (s : Snapshot) : Prop :=
  ∀ requested remaining, s.reply.error? = some (.bufferExhausted requested remaining) →
    remaining = capacity - s.committed.length ∧ remaining < requested

/-- The snapshots on the growable sink are the twins of those on the fixed one. -/
structure Interchanged (capacity : Nat) (fixed growable : List Snapshot) : Prop where
  twins : growable = fixed.map Snapshot.twin
  honest : ∀ s ∈ fixed, s.IsHonest capacity

namespace Interchanged

theorem nil : Interchanged capacity [] [] :=
  ⟨rfl, nofun⟩

theorem append {fixed fixed' growable growable' : List Snapshot}
    (h : Interchanged capacity fixed growable) (h' : Interchanged capacity fixed' growable') :
    Interchanged capacity (fixed ++ fixed') (growable ++ growable') where
  twins := by rw [h.twins, h'.twins, List.map_append]
  honest := List.forall_mem_append.mpr ⟨h.honest, h'.honest⟩

end Interchanged

/-- The second step is the twin of the first. -/
structure Stepped.Twins (capacity : Nat) (fit : σ → Prop) (s s' : Stepped σ) : Prop where
  kept : OverStorage capacity fit s.state
  state : s'.state = s.state.twin
  reply : s'.reply = s.reply.twin (sink s.state.store).length
  honest : ∀ requested remaining, s.reply.error? = some (.bufferExhausted requested remaining) →
    remaining = capacity - (sink s.state.store).length ∧ remaining < requested

omit [Codec σ] in
theorem Stepped.Twins.interchanged {s s' : Stepped σ} (h : s.Twins capacity fit s') :
    Interchanged capacity [s.snapshot] [s'.snapshot] := by
  have hlength := h.kept.lies.length_committed
  refine ⟨?_, ?_⟩
  · rw [List.map_singleton, Stepped.snapshot, Stepped.snapshot, Snapshot.twin, h.reply, h.state,
      Traversal.twin, sink_withSink, Sink.committed_twin, hlength]
  · rw [List.forall_mem_singleton, Snapshot.IsHonest, Stepped.snapshot, hlength]
    exact h.honest

section

variable [Codec.Observing σ] [Codec.Refusing σ] (law : Codec.Twinned capacity fit)

include law

/-- **One step** of twins leaves twins, and shows the same. -/
theorem Step.perform_twin {step : Step} (hstep : step.isOrdinary)
    (ht : OverStorage capacity fit t) :
    (step.perform t).Twins capacity fit (step.perform t.twin) := by
  cases step with
  | run r =>
    rw [isOrdinary, Bool.and_eq_true] at hstep
    have hrun := run_twin law ht hstep.1 hstep.2
    refine ⟨hrun.kept, hrun.state, ?_, ?_⟩
    · rw [Step.perform, Step.perform, hrun.result, hrun.value]
      rfl
    · intro requested remaining hshown
      exact hrun.kept.honest _ _ (hrun.tells _ (errorOf?_eq_some_iff.mp hshown))
  | visit f =>
    rw [isOrdinary, Bool.and_eq_true] at hstep
    have hvisit := Field.visit_twin law ht hstep.1 hstep.2
    refine ⟨hvisit.kept, hvisit.state, ?_, ?_⟩
    · rw [Step.perform, Step.perform, hvisit.result, hvisit.value]
      rfl
    · intro requested remaining hshown
      exact hvisit.kept.honest _ _ (hvisit.tells _ (errorOf?_eq_some_iff.mp hshown))
  | takeError =>
    refine ⟨⟨ht.encodes, ht.lies, ?_, ht.fit⟩, rfl, rfl, ht.honest⟩
    intro requested remaining hnone
    cases hnone
  | fail | rewind => cases hstep

/-- **Histories** of twins leave twins, and show the same after every step. -/
theorem performEach_twin {steps : List Step} (hsteps : steps.all Step.isOrdinary)
    (ht : OverStorage capacity fit t) :
    OverStorage capacity fit (performEach steps t).2 ∧
      (performEach steps t.twin).2 = (performEach steps t).2.twin ∧
      Interchanged capacity (performEach steps t).1 (performEach steps t.twin).1 := by
  induction steps generalizing t with
  | nil => exact ⟨ht, rfl, .nil⟩
  | cons step steps ih =>
    rw [List.all_cons, Bool.and_eq_true] at hsteps
    obtain ⟨hstep, hrest⟩ := hsteps
    have hfirst := step.perform_twin law hstep ht
    obtain ⟨hover, hstate, hothers⟩ := ih hrest hfirst.kept
    have hboth := hfirst.interchanged.append hothers
    simp only [performEach, hfirst.state]
    exact ⟨hover, hstate, hboth⟩

end

end

/-! ### The codecs -/

/-- A block that is too long is not refused in the name of the sink. -/
theorem lengthField_ne_exhausted (name : String) (n requested remaining : Nat) :
    lengthField name n ≠ .error (.bufferExhausted requested remaining) := by
  intro hrefused
  rw [lengthField] at hrefused
  by_cases h : n < UInt32.size
  · rw [if_pos h] at hrefused
    cases hrefused
  · rw [if_neg h] at hrefused
    cases hrefused

theorem small_le {n : Nat} (h : n ≤ 8) : n ≤ maxLength + 1 :=
  Nat.le_trans h (by decide)

theorem length_bigEndian_le {width : Nat} (n : Nat) (h : width ≤ 4) :
    (bigEndian width n).length ≤ 4 :=
  Nat.le_trans (Nat.le_of_eq (length_bigEndian width n)) h

/-- Numbers of a word or less. -/
theorem small_bigEndian {width : Nat} (n : Nat) (h : width ≤ 4) :
    (bigEndian width n).length ≤ maxLength + 1 :=
  small_le (Nat.le_trans (length_bigEndian_le n h) (by decide))

namespace Encoder

variable {capacity : Nat} (hcapacity : capacity ≤ maxLength)

section

include hcapacity

theorem hasTwin_put {data : Bytes} (hdata : data.length ≤ maxLength + 1) :
    (put data).HasTwin capacity fun _ => True :=
  Act.hasTwin_append hcapacity (fun _ _ h => h) hdata

theorem hasTwin_put_wrote {data : Bytes} (hdata : data.length ≤ maxLength + 1) (name : String)
    (shown : Shown) :
    (do put data; wrote name shown : Act Encoder Unit).HasTwin capacity fun _ => True :=
  (hasTwin_put hcapacity hdata).bind fun _ => Act.hasTwin_report _

theorem hasTwin_putMeasured (name : String) {data : Bytes} (hdata : data.length ≤ maxLength) :
    (putMeasured name data).HasTwin capacity fun _ => True :=
  Act.hasTwin_check.bind fun _ =>
    (Act.hasTwin_require (lengthField_ne_exhausted name data.length)).bind fun n =>
      (hasTwin_put_wrote hcapacity (small_bigEndian _ (Nat.le_refl 4)) name (.u32 n)).bind
        fun _ => hasTwin_put hcapacity (Nat.le_succ_of_le hdata)

theorem hasTwin_putTerminated (name : String) {data : Bytes} (hdata : data.length ≤ maxLength) :
    (putTerminated name data).HasTwin capacity fun _ => True := by
  refine Act.hasTwin_check.bind fun _ => ?_
  by_cases h : data.contains 0
  · rw [if_pos h]
    exact Act.hasTwin_fail nofun
  · rw [if_neg h]
    refine hasTwin_put hcapacity ?_
    rw [List.length_append, List.length_singleton]
    exact Nat.succ_le_succ hdata

/-- **Leaves** that memory can hold. -/
theorem hasTwin_write {l : Leaf} (h : (Stop.leaf l).isStorable) :
    (write l.kind l.name l.value).HasTwin capacity fun _ => True := by
  obtain ⟨name, kind, v⟩ := l
  cases kind with
  | u32 | u16 =>
    exact hasTwin_put_wrote hcapacity (small_bigEndian _ (by decide)) name _
  | u8 | bool => exact hasTwin_put_wrote hcapacity (small_le (Nat.le_of_ble_eq_true rfl)) name _
  | fixed =>
    simp only [Stop.isStorable, Kind.isStorable, decide_eq_true_iff] at h
    exact hasTwin_put_wrote hcapacity (Nat.le_succ_of_le h) name _
  | block flags =>
    simp only [Stop.isStorable, Kind.isStorable, decide_eq_true_iff] at h
    simp only [write]
    by_cases hterm : meets flags BlockFlags.terminated
    · rw [if_pos hterm]
      exact (hasTwin_putTerminated hcapacity name h).bind fun _ => Act.hasTwin_report _
    · rw [if_neg hterm]
      exact (hasTwin_putMeasured hcapacity name h).bind fun _ => Act.hasTwin_report _
  | text =>
    simp only [Stop.isStorable, Kind.isStorable, decide_eq_true_iff] at h
    exact (hasTwin_putMeasured hcapacity name h).bind fun _ => Act.hasTwin_report _

/-- The trailer is a checksum of committed bytes. -/
theorem hasTwin_putTrailer : putTrailer.HasTwin capacity fun _ => True := by
  let sealing : UInt32 → Act Encoder Unit := fun crc => do
    put (bigEndian 4 crc.toNat)
    Act.modifyStore fun e => { e with framed := true }
    Act.report (.trailer .written crc)
  have hshape : putTrailer = Act.store >>= fun e => sealing (crc32 e.body) := rfl
  rw [hshape]
  refine Act.HasTwin.of_store (fun e : Encoder => crc32 e.body) sealing ?_ ?_
  · intro e
    have hbody : (withSink (sink e).twin e).body = e.body := by
      show e.sink.twin.committed.drop e.origin = e.sink.committed.drop e.origin
      rw [Sink.committed_twin]
    exact congrArg crc32 hbody
  · intro e _
    have hframed : (Act.modifyStore fun e : Encoder => { e with framed := true }).HasTwin capacity
        fun _ => True := Act.hasTwin_modifyStore (fun _ => rfl) (fun _ _ => rfl) fun _ h => h
    exact (hasTwin_put hcapacity (small_bigEndian _ (Nat.le_refl 4))).bind fun _ =>
      hframed.bind fun _ => Act.hasTwin_report _

theorem hasTwin_finish : finish.HasTwin capacity fun _ => True := by
  intro t ht
  cases herror : t.error with
  | some e =>
    rw [finish_of_stored (by rw [herror]; nofun),
      finish_of_stored (by rw [Traversal.error_twin_of_some herror]; nofun)]
    exact ⟨ht, rfl, rfl⟩
  | none =>
    by_cases h : meets t.options Options.checksum
    · rw [finish_of_meets herror h, finish_of_meets (Traversal.error_twin_of_none herror) h]
      exact hasTwin_putTrailer hcapacity t ht
    · have hno : ¬meets t.twin.options Options.checksum := h
      rw [finish_of_not_meets h, finish_of_not_meets hno]
      exact ⟨ht, rfl, rfl⟩

end

/-- Taking a trailer off leaves twins. -/
theorem dropTrailer_twin {e : Encoder} (h : e.sink.Over capacity) :
    e.dropTrailer.sink.Over capacity ∧
      (withSink e.sink.twin e).dropTrailer = withSink e.dropTrailer.sink.twin e.dropTrailer := by
  by_cases hframed : e.framed
  · have hframed' : (withSink e.sink.twin e).framed := hframed
    obtain ⟨hover, htwin⟩ := Sink.resize_twin h (Nat.sub_le e.sink.length wordSize)
    rw [dropTrailer_of_framed hframed, dropTrailer_of_framed hframed']
    refine ⟨hover, ?_⟩
    show ({ e with
        sink := e.sink.twin.resize (e.sink.twin.length - wordSize), framed := false } : Encoder) =
      { e with sink := (e.sink.resize (e.sink.length - wordSize)).twin, framed := false }
    rw [h.length_twin, htwin]
  · have hframed' : ¬(withSink e.sink.twin e).framed := hframed
    rw [dropTrailer_of_not_framed hframed, dropTrailer_of_not_framed hframed']
    exact ⟨h, rfl⟩

/-- **The encoder** leads from twins to twins. -/
theorem twinned (hcapacity : capacity ≤ maxLength) :
    Codec.Twinned (σ := Encoder) capacity fun _ => True where
  perform s hs := by
    cases s with
    | leaf l =>
      rw [Stop.perform_leaf visit_eq_write]
      exact (hasTwin_write hcapacity hs).bind fun _ => Act.hasTwin_pure ()
    | close => exact Act.hasTwin_pure ()
  openRun t herror ht := by
    obtain ⟨hover, htwin⟩ := dropTrailer_twin ht.lies
    refine ⟨{ t with store := t.store.dropTrailer }, ⟨ht.encodes, hover, ?_, trivial⟩, herror, rfl,
      ?_⟩
    · intro requested remaining hsame
      rw [herror] at hsame
      cases hsame
    · rw [Traversal.twin_of_clean herror,
        Traversal.twin_of_clean (t := { t with store := t.store.dropTrailer }) herror]
      exact congrArg (fun e => (⟨.ok (), { t with store := e }, []⟩ : Outcome Encoder Unit)) htwin
  closeRun := hasTwin_finish hcapacity

end Encoder

namespace KeyEncoder

variable {capacity : Nat} (hcapacity : capacity ≤ maxLength)

/-- Memory can hold the border. -/
def IsStorable (e : KeyEncoder) : Prop :=
  e.border.length ≤ maxLength

section

include hcapacity

theorem hasTwin_put {data : Bytes} (hdata : data.length ≤ maxLength + 1) :
    (put data).HasTwin capacity IsStorable :=
  Act.hasTwin_append hcapacity (fun _ _ h => h) hdata

theorem hasTwin_putDigits {bs : Bytes} (hbs : bs.length ≤ 4) :
    (putDigits bs).HasTwin capacity IsStorable := by
  refine hasTwin_put hcapacity (small_le ?_)
  rw [Hex.length_encode]
  omega

theorem hasTwin_putMeasured (name : String) {data : Bytes} (hdata : data.length ≤ maxLength) :
    (putMeasured name data).HasTwin capacity IsStorable :=
  Act.hasTwin_check.bind fun _ =>
    (Act.hasTwin_require (lengthField_ne_exhausted name data.length)).bind fun _ =>
      (hasTwin_putDigits hcapacity (length_bigEndian_le _ (Nat.le_refl 4))).bind fun _ =>
        hasTwin_put hcapacity (Nat.le_succ_of_le hdata)

/-- **Leaves** that memory can hold. -/
theorem hasTwin_write {l : Leaf} (h : (Stop.leaf l).isStorable) :
    (write l.kind l.name l.value).HasTwin capacity IsStorable := by
  obtain ⟨name, kind, v⟩ := l
  cases kind with
  | u32 | u16 => exact hasTwin_putDigits hcapacity (length_bigEndian_le _ (by decide))
  | u8 => exact hasTwin_putDigits hcapacity (Nat.le_of_ble_eq_true rfl)
  | bool => exact hasTwin_put hcapacity (small_le (Nat.le_of_ble_eq_true rfl))
  | fixed =>
    simp only [Stop.isStorable, Kind.isStorable, decide_eq_true_iff] at h
    exact hasTwin_put hcapacity (Nat.le_succ_of_le h)
  | block flags =>
    simp only [Stop.isStorable, Kind.isStorable, decide_eq_true_iff] at h
    exact (hasTwin_putMeasured hcapacity name h).bind fun _ => Act.hasTwin_report _
  | text =>
    simp only [Stop.isStorable, Kind.isStorable, decide_eq_true_iff] at h
    exact hasTwin_putMeasured hcapacity name h

theorem hasTwin_putBorder : putBorder.HasTwin capacity IsStorable := by
  refine Act.HasTwin.of_store KeyEncoder.border
    (fun border => if border.isEmpty then Act.check else put border) (fun _ => rfl) ?_
  intro e he
  by_cases h : e.border.isEmpty
  · rw [if_pos h]
    exact Act.hasTwin_check
  · rw [if_neg h]
    exact hasTwin_put hcapacity (Nat.le_succ_of_le he)

end

/-- **The key encoder** leads from twins to twins. -/
theorem twinned (hcapacity : capacity ≤ maxLength) :
    Codec.Twinned (σ := KeyEncoder) capacity IsStorable where
  perform s hs := by
    cases s with
    | leaf l =>
      rw [Stop.perform_leaf visit_eq_write]
      exact (hasTwin_write hcapacity hs).bind fun _ => hasTwin_putBorder hcapacity
    | close => exact hasTwin_putBorder hcapacity
  openRun t herror ht := ⟨t, ht, herror, rfl, rfl⟩
  closeRun := Act.hasTwin_pure ()

end KeyEncoder

/-! ### Jobs on twins -/

variable {capacity : Nat} {s : Sink}

/-- **One job** on twins leaves twins, and shows the same. -/
theorem Job.serve_twin (hcapacity : capacity ≤ maxLength) {job : Job} (hjob : job.isOrdinary)
    (hs : s.Over capacity) :
    (job.serve s).2.Over capacity ∧ (job.serve s.twin).2 = (job.serve s).2.twin ∧
      Interchanged capacity (job.serve s).1 (job.serve s.twin).1 := by
  cases job with
  | binary context options steps =>
    have hstart : OverStorage capacity (fun _ => True) (Encoder.start context options s) :=
      ⟨rfl, hs, fun _ _ => nofun, trivial⟩
    have htwin : Encoder.start context options s.twin =
        (Encoder.start context options s).twin := by
      rw [Encoder.start, hs.length_twin]
      rfl
    obtain ⟨hover, hstate, hsame⟩ := performEach_twin (Encoder.twinned hcapacity) hjob hstart
    simp only [Job.serve, htwin, hstate]
    exact ⟨hover.lies, rfl, hsame⟩
  | key border steps =>
    rw [Job.isOrdinary, Bool.and_eq_true, decide_eq_true_iff] at hjob
    have hstart : OverStorage capacity KeyEncoder.IsStorable (KeyEncoder.start border s) :=
      ⟨rfl, hs, fun _ _ => nofun, hjob.1⟩
    have htwin : KeyEncoder.start border s.twin = (KeyEncoder.start border s).twin := rfl
    obtain ⟨hover, hstate, hsame⟩ := performEach_twin (KeyEncoder.twinned hcapacity) hjob.2 hstart
    simp only [Job.serve, htwin, hstate]
    exact ⟨hover.lies, rfl, hsame⟩

/-- **Jobs in a row** do. -/
theorem serveAll_twin (hcapacity : capacity ≤ maxLength) {jobs : List Job}
    (hjobs : ∀ job ∈ jobs, job.isOrdinary) (hs : s.Over capacity) :
    (serveAll jobs s).2.Over capacity ∧ (serveAll jobs s.twin).2 = (serveAll jobs s).2.twin ∧
      Interchanged capacity (serveAll jobs s).1 (serveAll jobs s.twin).1 := by
  induction jobs generalizing s with
  | nil => exact ⟨hs, rfl, .nil⟩
  | cons job jobs ih =>
    obtain ⟨hjob, hrest⟩ := List.forall_mem_cons.mp hjobs
    obtain ⟨hover, hsink, hfirst⟩ := job.serve_twin hcapacity hjob hs
    obtain ⟨hover', hsink', hothers⟩ := ih hrest hover
    simp only [serveAll, hsink]
    exact ⟨hover', hsink', hfirst.append hothers⟩

/-- **Sinks are interchangeable.** Jobs are done one after another, once over storage whatever is in
it, and once on an empty growable sink with the size of the storage for its limit. After every step
the committed bytes are the same, and so are the answers, but that where the fixed sink refuses with
what it has left, the growable one refuses with the length that would have been needed. -/
theorem sinks_interchangeable {storage : Bytes} (hcapacity : storage.length ≤ maxLength)
    {jobs : List Job} (hjobs : ∀ job ∈ jobs, job.isOrdinary) :
    let fixed := serveAll jobs (Sink.overStorage storage)
    let growable := serveAll jobs (Sink.empty (some storage.length))
    growable.1 = fixed.1.map Snapshot.twin ∧
      growable.1.map Snapshot.committed = fixed.1.map Snapshot.committed ∧
      growable.1.map (fun s => s.reply.succeeded) = fixed.1.map (fun s => s.reply.succeeded) ∧
      (∀ s ∈ fixed.1, s.IsHonest storage.length) ∧
      growable.2.committed = fixed.2.committed := by
  intro fixed growable
  have hover : (Sink.overStorage storage).Over storage.length :=
    ⟨storage, 0, rfl, rfl, Nat.zero_le _⟩
  have htwin : Sink.empty (some storage.length) = (Sink.overStorage storage).twin := rfl
  obtain ⟨-, hsink, hsame⟩ := serveAll_twin hcapacity hjobs hover
  have hsnapshots : growable.1 = fixed.1.map Snapshot.twin := hsame.twins
  refine ⟨hsnapshots, ?_, ?_, hsame.honest, ?_⟩
  · rw [hsnapshots, List.map_map]
    rfl
  · rw [hsnapshots, List.map_map]
    exact List.map_congr_left fun s _ => Reply.succeeded_twin _ s.reply
  · show (serveAll jobs (Sink.overStorage storage).twin).2.committed = fixed.2.committed
    rw [hsink, Sink.committed_twin]

/-- Seven bytes of storage. The second trailer takes the place of the first, a number does not fit
behind it, a smaller one does, and then there is no room for a key. -/
theorem sinks_interchangeable_seven :
    let jobs := [Job.binary .network Options.checksum [.run (.strict [.leaf "a" .u8 1]),
        .run (.strict [.leaf "b" .u8 2]), .visit (.leaf "c" .u16 3), .takeError,
        .visit (.leaf "d" .u8 4)],
      .key (some "|") [.run (.strict [.leaf "e" .u8 5])]]
    let fixed := serveAll jobs (Sink.overStorage [9, 9, 9, 9, 9, 9, 9])
    let growable := serveAll jobs (Sink.empty (some 7))
    growable.1 = fixed.1.map Snapshot.twin ∧
      growable.2.committed = fixed.2.committed ∧
      fixed.1.map (fun s => s.reply.error?) = [none, none, some (.bufferExhausted 2 1),
        some (.bufferExhausted 2 1), none, some (.bufferExhausted 2 0)] ∧
      growable.1.map (fun s => s.reply.error?) = [none, none, some (.outOfMemory 8),
        some (.outOfMemory 8), none, some (.outOfMemory 9)] := by
  intro jobs fixed growable
  have hcapacity : ([9, 9, 9, 9, 9, 9, 9] : Bytes).length ≤ maxLength := by decide
  have hjobs : ∀ job ∈ jobs, job.isOrdinary := by decide
  obtain ⟨hsnapshots, -, -, -, hcommitted⟩ := sinks_interchangeable hcapacity hjobs
  refine ⟨hsnapshots, hcommitted, ?_, ?_⟩
  · decide +kernel
  · decide +kernel

end RecordCodec
