import RecordCodec.Proofs.Binary.Framing
import RecordCodec.Proofs.History
import RecordCodec.Proofs.Sink.Commits

/-!
# Steps of the encoder that succeed

Nothing is asked here of the sink, or of the values. If a visit or a run of data succeeds, then its
leaves have binary forms, and those forms stand in the sink. So a history in which every step
succeeds is known by what its steps visit.

The trailer is no exception. A run that succeeds has taken four bytes off the end if the last run
wrote a trailer, and this alone decides it: whether the four bytes are that trailer still is not
asked.

## Main results

* `Encoder.commits_leaf` — a leaf that was written has a binary form, and was written as it.
* `Encoder.visit_succeeded` — a field outside of a run.
* `Encoder.run_succeeded` — a run.
-/

namespace RecordCodec

/-- The binary form of what a step visits. -/
def Step.layout : Step → Bytes
  | .run r => r.layout
  | .visit f => f.layout
  | .takeError | .fail _ | .rewind => []

namespace Encoder

/-! ### Leaves -/

variable {e : Encoder}

theorem commits_put (data : Bytes) : Act.Commits e (put data) (fun _ => True) data :=
  Act.commits_append data

theorem commits_put_wrote (data : Bytes) (name : String) (shown : Shown) :
    Act.Commits e (do put data; wrote name shown) (fun _ => True) data :=
  (commits_put data).seq_still (Act.commits_report _)

theorem commits_putWord (name : String) (v : UInt32) :
    Act.Commits e (putWord name v) (fun _ => True) (bigEndian 4 v.toNat) :=
  commits_put_wrote _ name (.u32 v)

/-- A block that was written behind its length is short enough. -/
theorem commits_putMeasured (name : String) (data : Bytes) :
    Act.Commits e (putMeasured name data) (fun _ => data.length < UInt32.size)
      (bigEndian 4 data.length ++ data) := by
  have hbody : ∀ n, lengthField name data.length = .ok n →
      Act.Commits e (do putWord name n; put data) (fun _ => data.length < UInt32.size)
        (bigEndian 4 data.length ++ data) := by
    intro n hn
    obtain ⟨hlen, rfl⟩ := lengthField_eq_ok_iff.mp hn
    have hword := commits_putWord (e := e) name (UInt32.ofNat data.length)
    rw [UInt32.toNat_ofNat_of_lt' hlen] at hword
    exact hword.seq ((commits_put data).mono fun _ _ => hlen)
  exact Act.commits_check.seq (Act.commits_require.bind hbody)

/-- A block that was written in front of its terminator does not contain it. -/
theorem commits_putTerminated (name : String) (data : Bytes) :
    Act.Commits e (putTerminated name data) (fun _ => data.contains 0 = false)
      (data ++ [0]) := by
  rw [putTerminated]
  by_cases h : data.contains 0
  · rw [if_pos h]
    exact Act.commits_check.seq (Act.commits_fail _ (data ++ [0]))
  · rw [if_neg h]
    exact Act.commits_check.seq
      ((commits_put (data ++ [0])).mono fun _ _ => eq_false_of_ne_true h)

/-- **A leaf that was written** has a binary form, and was written as that form. -/
theorem commits_leaf (l : Leaf) :
    Act.Commits e (write l.kind l.name l.value) (fun _ => l.isEncodable) l.layout := by
  obtain ⟨name, kind, v⟩ := l
  cases kind with
  | u32 => exact (commits_put_wrote (bigEndian 4 v.toNat) name (.u32 v)).mono fun _ _ => rfl
  | u16 => exact (commits_put_wrote (bigEndian 2 v.toNat) name (.u16 v)).mono fun _ _ => rfl
  | u8 =>
    have hlayout : (⟨name, .u8, v⟩ : Leaf).layout = [v] := bigEndian_byte v
    rw [hlayout]
    exact (commits_put_wrote [v] name (.u8 v)).mono fun _ _ => rfl
  | bool => exact (commits_put_wrote [if v then 1 else 0] name (.bool v)).mono fun _ _ => rfl
  | fixed => exact (commits_put_wrote v name (.fixed v.length (leading v))).mono fun _ _ => rfl
  | block flags =>
    simp only [write, Leaf.layout, Kind.layout, Leaf.isEncodable, Kind.isEncodable]
    by_cases hterm : meets flags BlockFlags.terminated
    · simp only [if_pos hterm, Bool.not_eq_true']
      exact (commits_putTerminated name v.toBytes).seq_still (Act.commits_report _)
    · simp only [if_neg hterm, decide_eq_true_iff]
      exact (commits_putMeasured name v.toBytes).seq_still (Act.commits_report _)
  | text =>
    simp only [write, Leaf.layout, Kind.layout, Leaf.isEncodable, Kind.isEncodable,
      decide_eq_true_iff]
    exact (commits_putMeasured name (utf8 v)).seq_still (Act.commits_report _)

/-! ### Visits -/

theorem commits_walk (ss : List Stop) :
    Act.Commits e (walk ss) (fun _ => LeavesFit Leaf.isEncodable ss) (ss.flatMap Stop.layout) := by
  have hstop : ∀ s ∈ ss, Act.Commits e s.perform (fun _ => ∀ l, s = .leaf l → l.isEncodable)
      s.layout := by
    intro s _
    cases s with
    | leaf l =>
      rw [Stop.perform_leaf visit_eq_write]
      refine ((commits_leaf l).seq_still (Act.commits_pure trivial)).mono fun _ hl => ?_
      rintro _ ⟨⟩
      exact hl
    | close => exact Act.commits_pure nofun
  refine (walk_commits hstop).mono fun _ hall => ?_
  intro l hl
  exact hall _ hl l rfl

variable {t : Traversal Encoder}

theorem walk_succeeded {ss : List Stop} (ht : t.error = none) (h : (walk ss t).result = .ok ()) :
    LeavesFit Leaf.isEncodable ss ∧ ∃ s, t.store.sink.Grown (ss.flatMap Stop.layout) s ∧
      (walk ss t).state = { t with store := { t.store with sink := s } } :=
  commits_walk (e := t.store) ss t t.store.sink () ht rfl h

/-- **A visit outside of a run**, if it succeeds. -/
theorem visit_succeeded {f : Field} (hf : f.isData) (ht : t.error = none)
    (hdir : t.direction ≠ .decode) (h : (f.visit t).result = .ok ()) :
    LeavesFit Leaf.isEncodable f.stops ∧ ∃ s, t.store.sink.Grown f.layout s ∧
      (f.visit t).state = { t with store := { t.store with sink := s } } := by
  rw [Field.visit_eq_walk hf ht hdir] at h ⊢
  exact walk_succeeded ht h

/-- A visit of the fields of a record, if it succeeds. -/
theorem visit_record_succeeded {r : Record} (hr : r.isData) (ht : t.error = none)
    (hdir : t.direction ≠ .decode) (h : (r.visit t).result = .ok ()) :
    LeavesFit Leaf.isEncodable r.stops ∧ ∃ s, t.store.sink.Grown r.layout s ∧
      (r.visit t).state = { t with store := { t.store with sink := s } } := by
  rw [Record.visit_eq_walk hr ht hdir] at h ⊢
  rw [r.layout_eq_flatMap]
  exact walk_succeeded ht h

/-! ### Runs -/

theorem finish_of_error (h : t.error ≠ none) : (finish t).state.error ≠ none := by
  rw [finish_of_stored h]
  exact h

/-- A trailer that left no error was written. -/
theorem putTrailer_succeeded (ht : t.error = none) (h : (putTrailer t).state.error = none) :
    ∃ s, t.store.sink.Grown (bigEndian 4 (crc32 t.store.body).toNat) s ∧
      (putTrailer t).state = { t with store := ⟨s, t.store.origin, true⟩ } := by
  have hstore : (Act.store : Act Encoder Encoder) t = ⟨.ok t.store, t, []⟩ := rfl
  cases hput : (put (bigEndian 4 (crc32 t.store.body).toNat) t).result with
  | error e =>
    have hcheck := (faithful_put (bigEndian 4 (crc32 t.store.body).toNat)).check t ht
    simp only [putTrailer, Act.bind_apply, hstore, hput] at h
    rw [Traversal.check_eq_ok_iff.mpr h, hput] at hcheck
    cases hcheck
  | ok u =>
    obtain ⟨-, s, hgrown, hstate⟩ := commits_put (e := t.store) _ t t.store.sink u ht rfl hput
    refine ⟨s, hgrown, ?_⟩
    simp only [putTrailer, Act.bind_apply, hstore, hput, hstate, Act.modifyStore, Act.report]
    rfl

/-- The end of a run, if it leaves no error, has written the trailer that the options ask for. -/
theorem finish_succeeded (ht : t.error = none) (h : (finish t).state.error = none) :
    ∃ s, t.store.sink.Grown (trailer t.options t.store.body) s ∧
      (finish t).state = { t with
        store := ⟨s, t.store.origin, t.store.framed || meets t.options Options.checksum⟩ } := by
  by_cases hc : meets t.options Options.checksum
  · rw [finish_of_meets ht hc] at h ⊢
    rw [trailer_of_meets hc, hc, Bool.or_true]
    exact putTrailer_succeeded ht h
  · rw [finish_of_not_meets hc, trailer_of_not_meets hc, eq_false_of_ne_true hc, Bool.or_false]
    exact ⟨_, .refl _, rfl⟩

/-- **A run**, if it succeeds. The old trailer goes, the form of the record comes, and a new
trailer. -/
theorem run_succeeded {r : Record} (hr : r.isData) (hdir : t.direction ≠ .decode)
    (h : (run r t).result = .ok ()) :
    t.error = none ∧ LeavesFit Leaf.isEncodable r.stops ∧
      ∃ s s', t.store.dropTrailer.sink.Grown r.layout s ∧
        s.Grown (trailer t.options (s.committed.drop t.store.origin)) s' ∧
        (run r t).state = { t with
          store := ⟨s', t.store.origin, meets t.options Options.checksum⟩ } := by
  obtain ⟨ht, -, hbody, hclosed, -, hstate⟩ :=
    RecordCodec.run_succeeded (fun _ => finish_of_error) h
  have hopen : ((Codec.openRun : Act Encoder Unit) t).state =
      { t with store := t.store.dropTrailer } := rfl
  rw [hopen] at hbody hclosed hstate
  obtain ⟨hfit, s, hgrown, hvisit⟩ :=
    visit_record_succeeded (t := { t with store := t.store.dropTrailer }) hr ht hdir hbody
  rw [hvisit] at hclosed hstate
  obtain ⟨s', hgrown', hfinish⟩ := finish_succeeded
    (t := { t with store := { t.store.dropTrailer with sink := s } }) ht hclosed
  refine ⟨ht, hfit, s, s', hgrown, ?_, ?_⟩
  · rw [← origin_dropTrailer]
    exact hgrown'
  · have hframed : t.store.dropTrailer.framed = false :=
      eq_false_of_ne_true (framed_dropTrailer t.store)
    rw [hstate]
    refine hfinish.trans ?_
    simp only [hframed, origin_dropTrailer, Bool.false_or]

/-- **The first run**, if it succeeds, leaves the form of its record, sealed. -/
theorem first_run_succeeded {r : Record} {context : Context} {options : Mask} {s : Sink}
    (hr : r.isData) (hs : s.committed.length = s.length)
    (h : (run r (start context options s)).result = .ok ()) :
    LeavesFit Leaf.isEncodable r.stops ∧
      s.Grown (sealed options r.layout) (run r (start context options s)).state.store.sink := by
  obtain ⟨-, hfit, s', s'', hgrown, hgrown', hstate⟩ :=
    run_succeeded (t := start context options s) hr nofun h
  have hbody : s'.committed.drop (start context options s).store.origin = r.layout := by
    rw [hgrown.committed]
    exact List.drop_left' hs
  rw [hbody] at hgrown'
  rw [hstate]
  exact ⟨hfit, hgrown.trans hgrown'⟩

end Encoder

end RecordCodec
