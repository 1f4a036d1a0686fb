import RecordCodec.Proofs.Binary.RoundTrip
import RecordCodec.Proofs.Lockstep

/-!
# Framing is transparent

A decoder that has found the trailer right reads what is in front of it as if nothing else were
there. It does not matter what the body is. A length that asks for more than there is left, a block
without a terminator, or a count that cannot be true is found out at the same place and with the
same error, even where the trailer would have supplied the missing bytes. This is a matter of two
decoders in step: their cursors stand at the same place and see the same bytes, and what lies behind
these bytes is seen by neither.

Where the trailer is wrong, or there is no room for one, the decoder is shut. It can be asked again
as often as one likes.

## Main definitions

* `Cursor.Agrees` — two cursors see the same bytes.
* `Decoder.Sees` — two decoders that have both begun to read.
* `startsWithRun`, `Step.isRetry` — the histories in question.

## Main results

* `Decoder.lockstep` — decoders that see the same bytes are in step.
* `Decoder.framing_transparent` — framing is transparent to decoding, and a strict gate.
-/

namespace RecordCodec

/-! ### Cursors that see the same bytes -/

namespace Cursor

/-- The two cursors stand at the same place, and may read the same bytes. -/
structure Agrees (c d : Cursor) : Prop where
  offset : d.offset = c.offset
  limit : d.limit = c.limit
  bytes : d.buffer.take d.limit = c.buffer.take c.limit

/-- What a cursor has ahead depends on the bytes up to its limit alone. -/
theorem rest_eq_drop (c : Cursor) : c.rest = (c.buffer.take c.limit).drop c.offset := by
  rw [rest, unread, List.drop_take]

theorem take_rest {c : Cursor} {n : Nat} (h : n ≤ c.unread) :
    c.rest.take n = (c.buffer.drop c.offset).take n := by
  rw [rest, List.take_take, Nat.min_eq_left h]

namespace Agrees

variable {c d : Cursor}

theorem unread (h : Agrees c d) : d.unread = c.unread := by
  rw [Cursor.unread, h.limit, h.offset, Cursor.unread]

theorem rest (h : Agrees c d) : d.rest = c.rest := by
  rw [rest_eq_drop, h.bytes, h.offset, rest_eq_drop]

theorem moved (h : Agrees c d) (n : Nat) : Agrees { c with offset := n } { d with offset := n } :=
  ⟨rfl, h.limit, h.bytes⟩

end Agrees

/-- Cursors that see the same bytes are cut alike, and moved to the same place. -/
def CutsAlike (f : Cursor → Except Error (Bytes × Cursor)) : Prop :=
  ∀ c d, Agrees c d →
    (∃ e, f c = .error e ∧ f d = .error e) ∨
      ∃ bs n, f c = .ok (bs, { c with offset := n }) ∧ f d = .ok (bs, { d with offset := n })

theorem cutsAlike_cut (n : Nat) : CutsAlike (cut n) := by
  intro c d h
  by_cases hshort : c.unread < n
  · refine .inl ⟨.bufferExhausted n c.unread, cut_eq_error_iff.mpr ⟨hshort, rfl⟩, ?_⟩
    rw [← h.unread] at hshort ⊢
    exact cut_eq_error_iff.mpr ⟨hshort, rfl⟩
  · have hc : n ≤ c.unread := Nat.not_lt.mp hshort
    have hd : n ≤ d.unread := h.unread ▸ hc
    refine .inr ⟨c.rest.take n, c.offset + n, ?_, ?_⟩
    · exact cut_eq_ok_iff.mpr ⟨hc, take_rest hc, rfl⟩
    · rw [← h.rest, ← h.offset]
      exact cut_eq_ok_iff.mpr ⟨hd, take_rest hd, rfl⟩

theorem cutsAlike_cutTerminated (field : String) : CutsAlike (cutTerminated field) := by
  intro c d h
  simp only [cutTerminated, h.rest, h.offset]
  by_cases hnone : (c.rest.takeWhile (· != 0)).length = c.rest.length
  · simp only [if_pos hnone]
    exact .inl ⟨_, rfl, rfl⟩
  · simp only [if_neg hnone]
    exact .inr ⟨_, _, rfl, rfl⟩

end Cursor

namespace Decoder

/-! ### Decoders that see the same bytes -/

/-- The two decoders see the same bytes and store the same error, and neither will look for a
trailer again. -/
structure Sees (t u : Traversal Decoder) : Prop where
  direction : u.direction = t.direction
  error : u.error = t.error
  cursor : Cursor.Agrees t.store.cursor u.store.cursor
  settled : t.store.verified || !t.has Options.checksum
  settled' : u.store.verified || !u.has Options.checksum

theorem steady : Steady Sees where
  direction h := h.direction
  error h := h.error
  setError h _ := ⟨h.direction, rfl, h.cursor, h.settled, h.settled'⟩

theorem Sees.moved {t u : Traversal Decoder} (h : Sees t u) (n : Nat) :
    Sees { t with store := { t.store with cursor := { t.store.cursor with offset := n } } }
      { u with store := { u.store with cursor := { u.store.cursor with offset := n } } } :=
  ⟨h.direction, h.error, h.cursor.moved n, h.settled, h.settled'⟩

/-- **A cut** takes the same bytes from both. -/
theorem lockstep_take {f : Cursor → Except Error (Bytes × Cursor)} (hf : Cursor.CutsAlike f) :
    Act.Lockstep Sees (take f) (take f) := by
  refine (Act.lockstep_check steady).bind fun _ => ?_
  intro t u h
  obtain ⟨e, hc, hd⟩ | ⟨bs, n, hc, hd⟩ := hf _ _ h.cursor
  · simp only [Act.bind_apply, Act.store, hc, hd, Act.require, Act.fail, h.error]
    cases t.error with
    | none => exact ⟨rfl, steady.setError h (some e)⟩
    | some stored => exact ⟨rfl, h⟩
  · simp only [Act.bind_apply, Act.store, hc, hd, Act.require, Act.done, Act.modifyStore,
      Act.pure_apply]
    exact ⟨rfl, h.moved n⟩

/-! ### Leaves -/

theorem lockstep_saw (name : String) (shown : Shown) :
    Act.Lockstep Sees (saw name shown) (saw name shown) :=
  Act.lockstep_report _

theorem lockstep_getWord (name : String) : Act.Lockstep Sees (getWord name) (getWord name) :=
  (lockstep_take (Cursor.cutsAlike_cut 4)).bind fun _ =>
    (lockstep_saw name _).bind fun _ => Act.lockstep_pure _

theorem lockstep_getMeasured (name : String) :
    Act.Lockstep Sees (getMeasured name) (getMeasured name) :=
  (lockstep_getWord name).bind fun _ => lockstep_take (Cursor.cutsAlike_cut _)

theorem lockstep_read (kind : Kind) (name : String) (v : kind.Value) :
    Act.Lockstep Sees (read kind name v) (read kind name v) := by
  have htake : ∀ n, Act.Lockstep Sees (take (Cursor.cut n)) (take (Cursor.cut n)) :=
    fun n => lockstep_take (Cursor.cutsAlike_cut n)
  cases kind with
  | u32 => exact lockstep_getWord name
  | u16 | u8 | bool | fixed =>
    exact (htake _).bind fun _ => (lockstep_saw name _).bind fun _ => Act.lockstep_pure _
  | block flags =>
    simp only [read]
    by_cases hterm : meets flags BlockFlags.terminated
    · simp only [if_pos hterm]
      exact (lockstep_take (Cursor.cutsAlike_cutTerminated name)).bind fun _ =>
        (lockstep_saw name _).bind fun _ => Act.lockstep_pure _
    · simp only [if_neg hterm]
      exact (lockstep_getMeasured name).bind fun _ =>
        (lockstep_saw name _).bind fun _ => Act.lockstep_pure _
  | text =>
    refine (lockstep_getMeasured name).bind fun bs => ?_
    cases ofUtf8? bs with
    | none => exact Act.lockstep_fail steady _
    | some s => exact (lockstep_saw name _).bind fun _ => Act.lockstep_pure _

/-- **Decoders that see the same bytes** are in step. -/
theorem lockstep : Codec.Lockstep Sees where
  toSteady := steady
  unread h := congrArg some h.cursor.unread
  rewind h := h.moved 0
  visit := lockstep_read
  close := Act.lockstep_pure ()
  openRun t u h := by
    show (prepare t).Match Sees (prepare u)
    rw [prepare_of_settled h.settled, prepare_of_settled h.settled']
    exact ⟨rfl, h⟩
  closeRun := Act.lockstep_pure ()

/-! ### The first run -/

/-- With their trailers out of the way, two decoders see the same body. -/
theorem sees_opened (context context' : Context) (options options' : Mask) (body : Bytes) :
    Sees (opened context options body []) (opened context' options' body []) := by
  have hbytes : ∀ o, (sealed o body ++ []).take (body ++ []).length = body := by
    intro o
    rw [List.append_nil, List.append_nil, sealed, List.take_left]
  refine ⟨rfl, rfl, ⟨rfl, rfl, ?_⟩, (settled_opened context body).settled,
    (settled_opened context' body).settled⟩
  exact (hbytes options').trans (hbytes options).symm

/-- **The first run** is answered alike, and then both decoders see the body. -/
theorem first_run_alike (context context' : Context) (options options' : Mask) (body : Bytes)
    {r : Record} (hr : r.isBlind) :
    (run r (start context options (sealed options body))).Match Sees
      (run r (start context' options' (sealed options' body))) := by
  have hopen := prepare_start context body (fun _ : meets options Options.checksum => rfl)
  have hopen' := prepare_start context' body (fun _ : meets options' Options.checksum => rfl)
  rw [List.append_nil] at hopen hopen'
  refine run_match_of_opened lockstep hr rfl rfl ?_
  show (prepare _).Match Sees (prepare _)
  rw [hopen, hopen']
  exact ⟨rfl, sees_opened context context' options options' body⟩

/-! ### Histories -/

end Decoder

/-- Until the first run of the history, errors are taken away and the input is rewound, and nothing
else is done. -/
def startsWithRun : List Step → Bool
  | [] | .run _ :: _ => true
  | .takeError :: steps | .rewind :: steps => startsWithRun steps
  | .visit _ :: _ | .fail _ :: _ => false

namespace Decoder

/-- Histories that start with a run are answered alike, whatever the options are. At their end the
decoders stand at the same place, and after a run they have the same left. -/
theorem performAll_start_alike (context context' : Context) (options options' : Mask)
    (body : Bytes) {steps : List Step} (hblind : ∀ step ∈ steps, step.isBlind)
    (hstarts : startsWithRun steps) :
    let done := performAll steps (start context options (sealed options body))
    let done' := performAll steps (start context' options' (sealed options' body))
    done'.1 = done.1 ∧ done'.2.1.store.cursor.offset = done.2.1.store.cursor.offset ∧
      (steps.any Step.isRun → Sees done.2.1 done'.2.1) := by
  induction steps with
  | nil => exact ⟨rfl, rfl, nofun⟩
  | cons step steps ih =>
    obtain ⟨hstep, hothers⟩ := List.forall_mem_cons.mp hblind
    cases step with
    | run r =>
      have first := first_run_alike context context' options options' body hstep
      obtain ⟨hreplies, hsees⟩ := performAll_alike lockstep hothers first.state
      refine ⟨?_, hsees.cursor.offset, fun _ => hsees⟩
      simp only [performAll, Step.perform, first.result, first.value, hreplies]
    | takeError | rewind =>
      -- nothing was read and no error is stored, so the state stays as it is
      obtain ⟨hreplies, hoffset, hsees⟩ := ih hothers hstarts
      exact ⟨congrArg (List.cons _) hreplies, hoffset, hsees⟩
    | visit f | fail e => exact absurd hstarts Bool.false_ne_true

end Decoder

/-! ### The gate -/

/-- The step asks a decoder to read once more, or makes ready to ask. -/
def Step.isRetry : Step → Bool
  | .run _ | .takeError | .rewind => true
  | .visit _ | .fail _ => false

/-- What a decoder that is shut with an error answers. -/
def Step.refused (e : Error) : Step → Reply → Prop
  | .run r, reply => reply = .ran (.error e) r
  | .takeError, reply => reply = .took none ∨ reply = .took (some e)
  | .rewind, reply => reply = .rewound
  | .visit _, _ | .fail _, _ => False

namespace Decoder

/-- The error of a decoder that finds a wrong trailer, or no room for one. -/
def refusal (buffer : Bytes) : Error :=
  if buffer.length < wordSize then .bufferExhausted wordSize buffer.length
  else
    let size := buffer.length - wordSize
    .checksum (UInt32.ofNat (ofBigEndian (buffer.drop size))) (crc32 (buffer.take size))

section

variable {context : Context} {options : Mask} {buffer : Bytes}

theorem length_drop_trailer (hlong : wordSize ≤ buffer.length) :
    (buffer.drop (buffer.length - wordSize)).length = wordSize := by
  rw [List.length_drop, Nat.sub_sub_self hlong]

/-- Four bytes or more that are not sealed have a wrong trailer. -/
theorem stored_ne_computed (hunsealed : ∀ body, buffer ≠ body ++ bigEndian 4 (crc32 body).toNat)
    (hlong : wordSize ≤ buffer.length) :
    UInt32.ofNat (ofBigEndian (buffer.drop (buffer.length - wordSize))) ≠
      crc32 (buffer.take (buffer.length - wordSize)) := by
  intro hsame
  refine hunsealed (buffer.take (buffer.length - wordSize)) ?_
  rw [← hsame, bigEndian_ofBigEndian_word (length_drop_trailer hlong), List.take_append_drop]

theorem verify_refuses (hunsealed : ∀ body, buffer ≠ body ++ bigEndian 4 (crc32 body).toNat) :
    verify (start context options buffer) =
      (Act.fail (refusal buffer) : Act Decoder Unit) (start context options buffer) := by
  by_cases hshort : buffer.length < wordSize
  · have hstart : (start context options buffer).store.cursor.buffer.length < wordSize := hshort
    simp only [verify, Act.bind_apply, Act.store, if_pos hstart, List.nil_append, refusal,
      if_pos hshort]
    rfl
  · have hlong : wordSize ≤ buffer.length := Nat.not_lt.mp hshort
    have hbuffer : (start context options buffer).store.cursor.buffer =
        buffer.take (buffer.length - wordSize) ++ buffer.drop (buffer.length - wordSize) :=
      (List.take_append_drop _ buffer).symm
    rw [verify_eq (length_drop_trailer hlong) hbuffer, if_neg (stored_ne_computed hunsealed hlong),
      refusal, if_neg hshort]

/-- Between two steps: the decoder has read nothing, and stores its refusal or nothing. -/
inductive Shut (context : Context) (options : Mask) (buffer : Bytes) : Traversal Decoder → Prop
  | fresh : Shut context options buffer (start context options buffer)
  | refused : Shut context options buffer
      { start context options buffer with error := some (refusal buffer) }

theorem Shut.offset {t : Traversal Decoder} (h : Shut context options buffer t) :
    t.store.cursor.offset = 0 := by
  cases h with
  | fresh => rfl
  | refused => rfl

theorem run_fresh (context : Context) (hchecksum : meets options Options.checksum)
    (hunsealed : ∀ body, buffer ≠ body ++ bigEndian 4 (crc32 body).toNat) (r : Record) :
    ∃ log, run r (start context options buffer) = ⟨.error (refusal buffer), r,
      { start context options buffer with error := some (refusal buffer) }, log⟩ := by
  have hopen : (Codec.openRun : Act Decoder Unit) (start context options buffer) =
      ⟨.error (refusal buffer), { start context options buffer with
        error := some (refusal buffer) }, [.failed .decode (refusal buffer)]⟩ := by
    show prepare _ = _
    rw [prepare_start_eq_verify context buffer hchecksum, verify_refuses hunsealed]
    rfl
  have hclean : (start context options buffer).error = none := rfl
  refine ⟨[.failed .decode (refusal buffer)], ?_⟩
  simp only [run, hclean, hopen]

/-- **One step** of a decoder that is shut. -/
theorem Shut.perform (hchecksum : meets options Options.checksum)
    (hunsealed : ∀ body, buffer ≠ body ++ bigEndian 4 (crc32 body).toNat) {step : Step}
    (hstep : step.isRetry) {t : Traversal Decoder} (h : Shut context options buffer t) :
    step.refused (refusal buffer) (step.perform t).reply ∧
      Shut context options buffer (step.perform t).state := by
  cases step with
  | run r =>
    cases h with
    | fresh =>
      obtain ⟨log, hrun⟩ := run_fresh context hchecksum hunsealed r
      rw [Step.perform, hrun]
      exact ⟨rfl, .refused⟩
    | refused =>
      rw [Step.perform, run_of_error rfl]
      exact ⟨rfl, .refused⟩
  | takeError =>
    cases h with
    | fresh => exact ⟨.inl rfl, .fresh⟩
    | refused => exact ⟨.inr rfl, .fresh⟩
  | rewind =>
    cases h with
    | fresh => exact ⟨rfl, .fresh⟩
    | refused => exact ⟨rfl, .refused⟩
  | visit _ | fail _ => exact absurd hstep Bool.false_ne_true

theorem Shut.performAll (hchecksum : meets options Options.checksum)
    (hunsealed : ∀ body, buffer ≠ body ++ bigEndian 4 (crc32 body).toNat) {steps : List Step}
    (hsteps : ∀ step ∈ steps, step.isRetry) {t : Traversal Decoder}
    (h : Shut context options buffer t) :
    List.Forall₂ (Step.refused (refusal buffer)) steps (RecordCodec.performAll steps t).1 ∧
      Shut context options buffer (RecordCodec.performAll steps t).2.1 := by
  induction steps generalizing t with
  | nil => exact ⟨.nil, h⟩
  | cons step steps ih =>
    obtain ⟨hstep, hothers⟩ := List.forall_mem_cons.mp hsteps
    obtain ⟨hreply, hnext⟩ := h.perform hchecksum hunsealed hstep
    obtain ⟨hreplies, hlast⟩ := ih hothers hnext
    exact ⟨.cons hreply hreplies, hlast⟩

end

/-- **Framing is transparent to decoding, and a strict gate.** In front of a right trailer, runs have
the same replies as without the trailer, and leave the decoder at the same place and with the same
left, however errors are taken away and the input is rewound between them. So do visits outside of a
run, once there was one. With a wrong trailer, or none, every run fails for that reason, no record
changes, and nothing is read. -/
theorem framing_transparent (context context' : Context) (framed bare : Mask)
    (hframed : meets framed Options.checksum) (hbare : ¬meets bare Options.checksum) :
    (∀ (body : Bytes) (steps : List Step), (∀ step ∈ steps, step.isBlind) → startsWithRun steps →
      let done := performAll steps
        (start context framed (body ++ bigEndian 4 (crc32 body).toNat))
      let plain := performAll steps (start context' bare body)
      done.1 = plain.1 ∧ done.2.1.store.cursor.offset = plain.2.1.store.cursor.offset ∧
        (steps.any Step.isRun →
          done.2.1.store.cursor.unread = plain.2.1.store.cursor.unread)) ∧
    ∀ buffer : Bytes, (∀ body, buffer ≠ body ++ bigEndian 4 (crc32 body).toNat) →
      ∃ e, (buffer.length < 4 → e = .bufferExhausted 4 buffer.length) ∧
        (4 ≤ buffer.length → ∃ stored computed, stored ≠ computed ∧
          e = .checksum stored computed) ∧
        ∀ steps : List Step, (∀ step ∈ steps, step.isRetry) →
          let done := performAll steps (start context framed buffer)
          List.Forall₂ (Step.refused e) steps done.1 ∧ done.2.1.store.cursor.offset = 0 := by
  refine ⟨?_, ?_⟩
  · intro body steps hblind hstarts
    have hsealed : sealed framed body = body ++ bigEndian 4 (crc32 body).toNat := by
      rw [sealed, trailer_of_meets hframed]
    have hplain : sealed bare body = body := by
      rw [sealed, trailer_of_not_meets hbare, List.append_nil]
    obtain ⟨hreplies, hoffset, hsees⟩ :=
      performAll_start_alike context context' framed bare body hblind hstarts
    rw [hsealed, hplain] at hreplies hoffset hsees
    exact ⟨hreplies.symm, hoffset.symm, fun hrun => (hsees hrun).cursor.unread.symm⟩
  · intro buffer hunsealed
    refine ⟨refusal buffer, ?_, ?_, ?_⟩
    · exact fun hshort => if_pos hshort
    · intro hlong
      exact ⟨_, _, stored_ne_computed hunsealed hlong, if_neg (Nat.not_lt.mpr hlong)⟩
    · intro steps hsteps
      have hfresh : Shut context framed buffer (start context framed buffer) := .fresh
      obtain ⟨hreplies, hshut⟩ := hfresh.performAll hframed hunsealed hsteps
      exact ⟨hreplies, hshut.offset⟩

/-- A block that would have to reach into the trailer, and a byte where the trailer should be. -/
theorem framing_transparent_specimen :
    let steps := [.rewind, .run (.strict [.leaf "blob" (.block 0) (.view [])]), .takeError,
      .rewind, .run Record.specimen.blank]
    let body := [0, 0, 0, 2, 7]
    meets Options.checksum Options.checksum ∧ ¬meets 0 Options.checksum ∧
      (∀ step ∈ steps, step.isBlind) ∧ startsWithRun steps ∧ steps.any Step.isRun ∧
      (let done := performAll steps
        (start .network Options.checksum (body ++ bigEndian 4 (crc32 body).toNat))
      let plain := performAll steps (start .storage 0 body)
      done.1 = plain.1 ∧ done.2.1.store.cursor.offset = plain.2.1.store.cursor.offset ∧
        (steps.any Step.isRun →
          done.2.1.store.cursor.unread = plain.2.1.store.cursor.unread)) ∧
      (∀ step ∈ steps, step.isRetry) ∧ (∀ body, [5] ≠ body ++ bigEndian 4 (crc32 body).toNat) ∧
      ∃ e, e = .bufferExhausted 4 1 ∧
        let done := performAll steps (start .network Options.checksum [5])
        List.Forall₂ (Step.refused e) steps done.1 ∧ done.2.1.store.cursor.offset = 0 := by
  intro steps body
  have hframed : meets Options.checksum Options.checksum := by decide
  have hbare : ¬meets 0 Options.checksum := by decide
  have hblank : Record.specimen.blank.isBlind := Record.isBlind_of_isPlain (by decide)
  have hblind : ∀ step ∈ steps, step.isBlind := by
    simp only [steps, List.forall_mem_cons]
    exact ⟨rfl, rfl, rfl, rfl, hblank, nofun⟩
  have hretry : ∀ step ∈ steps, step.isRetry := by decide
  have hshort : ∀ body, [5] ≠ body ++ bigEndian 4 (crc32 body).toNat := by
    intro body h
    have hlength := congrArg List.length h
    rw [List.length_append, length_bigEndian, List.length_singleton] at hlength
    omega
  obtain ⟨hopen, hshut⟩ :=
    framing_transparent .network .storage Options.checksum 0 hframed hbare
  obtain ⟨e, he, -, hall⟩ := hshut [5] hshort
  exact ⟨hframed, hbare, hblind, rfl, rfl, hopen body steps hblind rfl, hretry, hshort, e,
    he (by decide), hall steps hretry⟩

end Decoder

end RecordCodec
