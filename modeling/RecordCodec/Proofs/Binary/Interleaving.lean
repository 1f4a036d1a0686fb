import RecordCodec.Proofs.Binary.Success

/-!
# Visits between runs

The trailer is to cover everything that a traversal wrote, and a run takes it off before it writes
on. But what a run takes off is the last four bytes of the sink, and it does so whenever an earlier
run wrote a trailer. A field that was visited since then stands behind that trailer. So the run
takes the end of the field, and the trailer stays inside the body.

The bytes come out right all the same if the field and the trailer happen to fit: if what was
visited is the beginning of the trailer with what was visited behind it. This is so if nothing was
visited, and otherwise what was visited is the trailer over and over again. This module shows that
there is no other case. The history decides it alone, and neither the sink nor its contents matter.

## Main definitions

* `RepeatsTrailers` — between runs, a history visits nothing but repetitions of the trailer.
* `Encoder.Shaped`, `Encoder.Follows` — what an encoder has written, after a history.

## Main results

* `Encoder.Follows.perform` — one step more.
* `Encoder.Follows.sealed` — after a run, the body is right exactly if the trailers are repeated.
* `Encoder.sealed_iff_repeatsTrailers` — when nothing is lost.
-/

namespace RecordCodec

/-! ### Histories with visits between runs -/

/-- The bytes are what the trailer, with these bytes behind it, begins with. So they are the trailer
over and over again, as far as they go. -/
def RepeatsTrailer (options : Mask) (body gap : Bytes) : Prop :=
  gap <+: trailer options body ++ gap

/-- Whatever is visited between a run and the next repeats the trailer of all that was written
before. -/
def RepeatsTrailers (options : Mask) (steps : List Step) : Prop :=
  ∀ (earlier : List Step) (r : Record) (fields : List Field) (q : Record) (later : List Step),
    steps = earlier ++ .run r :: (fields.map .visit ++ .run q :: later) →
    RepeatsTrailer options ((earlier ++ [Step.run r]).flatMap Step.layout)
      (fields.flatMap Field.layout)

variable {options : Mask} {steps : List Step}

theorem repeatsTrailers_concat {s : Step} :
    RepeatsTrailers options (steps ++ [s]) ↔
      RepeatsTrailers options steps ∧
        ∀ (earlier : List Step) (r : Record) (fields : List Field) (q : Record), s = .run q →
          steps = earlier ++ .run r :: fields.map .visit →
          RepeatsTrailer options ((earlier ++ [Step.run r]).flatMap Step.layout)
            (fields.flatMap Field.layout) := by
  constructor
  · intro h
    refine ⟨?_, ?_⟩
    · rintro earlier r fields q later rfl
      exact h earlier r fields q (later ++ [s]) (by simp only [List.append_assoc, List.cons_append])
    · rintro earlier r fields q rfl rfl
      exact h earlier r fields q [] (by simp only [List.append_assoc, List.cons_append])
  · rintro ⟨hbefore, hlast⟩ earlier r fields q later h
    -- the second of the two runs is the last step, or a step before it
    obtain rfl | ⟨later', s', rfl⟩ := List.eq_nil_or_concat later
    · have h' : steps ++ [s] = (earlier ++ .run r :: fields.map .visit) ++ [.run q] := by
        rw [h, List.append_assoc, List.cons_append]
      obtain ⟨hsteps, hs⟩ := List.append_inj' h' rfl
      exact hlast earlier r fields q (List.singleton_inj.mp hs) hsteps
    · have h' : steps ++ [s] =
          (earlier ++ .run r :: (fields.map .visit ++ .run q :: later')) ++ [s'] := by
        rw [h]
        simp only [List.append_assoc, List.cons_append, List.concat_eq_append]
      exact hbefore earlier r fields q later' (List.append_inj' h' rfl).1

/-- Another visit does not matter before the next run. -/
theorem repeatsTrailers_concat_visit {f : Field} :
    RepeatsTrailers options (steps ++ [.visit f]) ↔ RepeatsTrailers options steps := by
  rw [repeatsTrailers_concat]
  exact and_iff_left fun _ _ _ _ h => nomatch h

/-- There is no run among visits. -/
theorem visits_ne_append_run (fields : List Field) (earlier : List Step) (r : Record)
    (later : List Step) : fields.map Step.visit ≠ earlier ++ .run r :: later := by
  intro h
  have hmem : Step.run r ∈ fields.map Step.visit := by
    rw [h]
    exact List.mem_append_right earlier List.mem_cons_self
  obtain ⟨f, -, hf⟩ := List.mem_map.mp hmem
  exact nomatch hf

/-- Between a run and visits there is not another run. -/
theorem eq_nil_of_run_cons {between : List Step} {r r' : Record} {fields fields' : List Field}
    (h : Step.run r :: fields.map .visit = between ++ .run r' :: fields'.map .visit) :
    between = [] ∧ r = r' ∧ fields = fields' := by
  cases between with
  | nil =>
    obtain ⟨hr, hfields⟩ := List.cons.inj h
    exact ⟨rfl, Step.run.inj hr, (List.map_inj_right fun _ _ => Step.visit.inj).mp hfields⟩
  | cons s between =>
    obtain ⟨-, hfields⟩ := List.cons.inj h
    exact absurd hfields (visits_ne_append_run fields between r' _)

/-- A history has one last run. -/
theorem last_run_unique {earlier earlier' : List Step} {r r' : Record} {fields fields' : List Field}
    (h : earlier ++ .run r :: fields.map .visit = earlier' ++ .run r' :: fields'.map .visit) :
    earlier = earlier' ∧ r = r' ∧ fields = fields' := by
  obtain ⟨between, rfl, hlater⟩ | ⟨between, rfl, hlater⟩ := List.append_eq_append_iff.mp h
  · obtain ⟨rfl, hr, hfields⟩ := eq_nil_of_run_cons hlater
    exact ⟨(List.append_nil earlier).symm, hr, hfields⟩
  · obtain ⟨rfl, hr, hfields⟩ := eq_nil_of_run_cons hlater
    exact ⟨List.append_nil earlier', hr.symm, hfields.symm⟩

/-- After visits alone, a run has no trailer in front of it. -/
theorem repeatsTrailers_visits_run (fields : List Field) (r : Record) :
    RepeatsTrailers options (fields.map .visit ++ [.run r]) := by
  rw [repeatsTrailers_concat]
  refine ⟨?_, ?_⟩
  · intro earlier q fields' q' later h
    exact absurd h (visits_ne_append_run fields earlier q _)
  · intro earlier q fields' q' _ h
    exact absurd h (visits_ne_append_run fields earlier q _)

/-- Behind a run and visits, another run depends on these visits. -/
theorem repeatsTrailers_concat_run {earlier : List Step} {r q : Record} {fields : List Field} :
    let steps := earlier ++ .run r :: fields.map .visit
    RepeatsTrailers options (steps ++ [.run q]) ↔
      RepeatsTrailers options steps ∧
        RepeatsTrailer options ((earlier ++ [Step.run r]).flatMap Step.layout)
          (fields.flatMap Field.layout) := by
  intro steps
  rw [repeatsTrailers_concat]
  refine and_congr_right fun _ => ⟨?_, ?_⟩
  · intro h
    exact h earlier r fields q rfl rfl
  · intro h earlier' r' fields' q' _ hsteps
    obtain ⟨rfl, rfl, rfl⟩ := last_run_unique hsteps
    exact h

/-! ### What a run takes off -/

namespace Encoder

variable {before bytes : Bytes} {t : Traversal Encoder}

/-- Between two steps: the encoder is in order, and has put `bytes` behind the sink's first bytes. -/
structure Has (before bytes : Bytes) (t : Traversal Encoder) : Prop where
  clean : t.error = none
  encodes : t.direction ≠ .decode
  origin : t.store.origin = before.length
  counted : t.store.sink.committed.length = t.store.sink.length
  committed : t.store.sink.committed = before ++ bytes

theorem has_start {context : Context} {s : Sink} (hs : s.committed.length = s.length) :
    Has s.committed [] (start context options s) :=
  ⟨rfl, nofun, hs.symm, hs, (List.append_nil _).symm⟩

theorem Has.visit {f : Field} (hf : f.isData) (h : Has before bytes t)
    (hok : (f.visit t).result = .ok ()) :
    Has before (bytes ++ f.layout) (f.visit t).state ∧
      (f.visit t).state.options = t.options ∧
      (f.visit t).state.store.framed = t.store.framed := by
  obtain ⟨-, s, hgrown, hstate⟩ := visit_succeeded hf h.clean h.encodes hok
  rw [hstate]
  refine ⟨⟨h.clean, h.encodes, h.origin, hgrown.exact h.counted, ?_⟩, rfl, rfl⟩
  change s.committed = before ++ (bytes ++ f.layout)
  rw [hgrown.committed, h.committed, List.append_assoc]

/-- What is kept of a body and its trailer, with further bytes behind them, when a trailer is taken
off the end. -/
def kept (options : Mask) (body gap : Bytes) : Bytes :=
  body ++ (trailer options body ++ gap).take gap.length

theorem length_kept (options : Mask) (body gap : Bytes) :
    (kept options body gap).length = body.length + gap.length := by
  rw [kept, List.length_append, List.length_take, List.length_append]
  omega

/-- All is kept exactly where the further bytes repeat the trailer. -/
theorem kept_eq_iff {body body' gap : Bytes} (hlen : body.length = body'.length) :
    kept options body gap = body' ++ gap ↔ body = body' ∧ RepeatsTrailer options body' gap := by
  rw [kept, RepeatsTrailer, List.prefix_iff_eq_take]
  constructor
  · intro h
    obtain ⟨rfl, hgap⟩ := List.append_inj h hlen
    exact ⟨rfl, hgap.symm⟩
  · rintro ⟨rfl, hgap⟩
    rw [← hgap]

theorem Has.committed_dropTrailer {body gap : Bytes}
    (h : Has before (sealed t.options body ++ gap) t)
    (hframed : t.store.framed = meets t.options Options.checksum) :
    t.store.dropTrailer.sink.committed = before ++ kept t.options body gap := by
  by_cases hc : meets t.options Options.checksum
  · have hlength : t.store.sink.length - wordSize =
        before.length + (body.length + gap.length) := by
      rw [← h.counted, h.committed]
      simp only [List.length_append, length_sealed, trailerLength, if_pos hc]
      omega
    rw [dropTrailer_of_framed (hframed.trans hc)]
    change (t.store.sink.resize _).committed = _
    rw [Sink.committed_resize (Nat.sub_le _ _), h.committed, hlength, sealed, List.append_assoc,
      List.take_length_add_append, List.take_length_add_append, kept]
  · have hno : ¬t.store.framed := by rwa [hframed]
    rw [dropTrailer_of_not_framed hno, h.committed, kept, sealed, trailer_of_not_meets hc,
      List.append_nil, List.nil_append, List.take_length]

theorem Has.counted_dropTrailer (h : Has before bytes t) :
    t.store.dropTrailer.sink.committed.length = t.store.dropTrailer.sink.length := by
  by_cases hframed : t.store.framed
  · rw [dropTrailer_of_framed hframed]
    have hback := Nat.sub_le t.store.sink.length wordSize
    change (t.store.sink.resize _).committed.length = (t.store.sink.resize _).length
    rw [Sink.committed_resize hback, Sink.length_resize, List.length_take, h.counted,
      Nat.min_eq_left hback]
  · rw [dropTrailer_of_not_framed hframed]
    exact h.counted

/-- **A run** writes behind what it has kept, and seals it. -/
theorem Has.run {r : Record} {left : Bytes} (hr : r.isData) (h : Has before bytes t)
    (hleft : t.store.dropTrailer.sink.committed = before ++ left)
    (hok : (run r t).result = .ok ()) :
    Has before (sealed t.options (left ++ r.layout)) (run r t).state ∧
      (run r t).state.options = t.options ∧
      (run r t).state.store.framed = meets t.options Options.checksum := by
  obtain ⟨-, -, s, s', hgrown, hgrown', hstate⟩ := run_succeeded hr h.encodes hok
  have hbody : s.committed = before ++ (left ++ r.layout) := by
    rw [hgrown.committed, hleft, List.append_assoc]
  have hexact : s'.committed.length = s'.length :=
    hgrown'.exact (hgrown.exact h.counted_dropTrailer)
  rw [hstate]
  refine ⟨⟨h.clean, h.encodes, h.origin, hexact, ?_⟩, rfl, rfl⟩
  change s'.committed = before ++ sealed t.options (left ++ r.layout)
  rw [hgrown'.committed, h.origin, hbody, List.drop_left, sealed]
  simp only [List.append_assoc]

/-! ### Histories -/

/-- What an encoder has written in a history. As long as there was no run, all of it. After a run,
as much as all of it, then the trailer, and then what was visited since; and it is all of it
exactly where the history repeats its trailers. -/
inductive Shaped (options : Mask) (steps : List Step) (bytes : Bytes) (framed : Bool) : Prop where
  | visits (fields : List Field) (history : steps = fields.map .visit)
    (written : bytes = fields.flatMap Field.layout) (bare : framed = false)
  | run (earlier : List Step) (r : Record) (fields : List Field) (body : Bytes)
    (history : steps = earlier ++ .run r :: fields.map .visit)
    (written : bytes = sealed options body ++ fields.flatMap Field.layout)
    (trailed : framed = meets options Options.checksum)
    (length : body.length = ((earlier ++ [Step.run r]).flatMap Step.layout).length)
    (whole : body = (earlier ++ [Step.run r]).flatMap Step.layout ↔ RepeatsTrailers options steps)

/-- The encoder has gone through the history, over a sink that held `before`. -/
structure Follows (options : Mask) (before : Bytes) (steps : List Step) (t : Traversal Encoder) :
    Prop where
  settings : t.options = options
  written : ∃ bytes, Has before bytes t ∧ Shaped options steps bytes t.store.framed

theorem layout_visits (fields : List Field) :
    (fields.map Step.visit).flatMap Step.layout = fields.flatMap Field.layout := by
  rw [List.flatMap_map]
  rfl

theorem follows_start {context : Context} {s : Sink} (hs : s.committed.length = s.length) :
    Follows options s.committed [] (start context options s) :=
  ⟨rfl, [], has_start hs, .visits [] rfl rfl rfl⟩

theorem Follows.visit {f : Field} (hf : f.isData) (h : Follows options before steps t)
    (hok : (f.visit t).result = .ok ()) :
    Follows options before (steps ++ [.visit f]) (f.visit t).state := by
  obtain ⟨rfl, bytes, hhas, hshaped⟩ := h
  obtain ⟨hhas', hoptions, hframed⟩ := hhas.visit hf hok
  refine ⟨hoptions, bytes ++ f.layout, hhas', ?_⟩
  rw [hframed]
  cases hshaped with
  | visits fields history written bare =>
    refine .visits (fields ++ [f]) ?_ ?_ bare
    · rw [history, List.map_append, List.map_singleton]
    · rw [written, List.flatMap_append, List.flatMap_singleton]
  | run earlier r fields body history written trailed length whole =>
    refine .run earlier r (fields ++ [f]) body ?_ ?_ trailed length ?_
    · rw [history, List.map_append, List.map_singleton, List.append_assoc, List.cons_append]
    · rw [written, List.flatMap_append, List.flatMap_singleton, List.append_assoc]
    · rw [whole, repeatsTrailers_concat_visit]

/-- **What a run starts from** is as long as all that was visited so far, and it is that exactly where
the history with the run repeats its trailers. -/
theorem Follows.left (h : Follows options before steps t) :
    ∃ left, t.store.dropTrailer.sink.committed = before ++ left ∧
      left.length = (steps.flatMap Step.layout).length ∧
      ∀ r, left = steps.flatMap Step.layout ↔ RepeatsTrailers options (steps ++ [.run r]) := by
  obtain ⟨rfl, bytes, hhas, hshaped⟩ := h
  cases hshaped with
  | visits fields history written bare =>
    -- no run has written a trailer yet, so nothing is taken off
    subst history
    refine ⟨bytes, ?_, ?_, ?_⟩
    · rw [dropTrailer_of_not_framed (bare ▸ Bool.false_ne_true), hhas.committed]
    · rw [written, layout_visits]
    · intro r
      rw [written, layout_visits]
      exact iff_of_true rfl (repeatsTrailers_visits_run fields r)
  | run earlier r fields body history written trailed length whole =>
    subst history written
    have hlayout : (earlier ++ Step.run r :: fields.map .visit).flatMap Step.layout =
        (earlier ++ [Step.run r]).flatMap Step.layout ++ fields.flatMap Field.layout := by
      rw [← layout_visits, ← List.flatMap_append, List.append_assoc, List.singleton_append]
    refine ⟨kept t.options body (fields.flatMap Field.layout),
      hhas.committed_dropTrailer trailed, ?_, ?_⟩
    · rw [length_kept, length, hlayout, List.length_append]
    · intro q
      rw [hlayout, kept_eq_iff length, whole]
      exact repeatsTrailers_concat_run.symm

/-- **After a run** the encoder has sealed as many bytes as were visited, and it has sealed those
bytes exactly where the history repeats its trailers. -/
theorem Follows.sealed {r : Record} (hr : r.isData) (h : Follows options before steps t)
    (hok : (run r t).result = .ok ()) :
    ∃ body, Has before (sealed options body) (run r t).state ∧
      (run r t).state.options = options ∧
      (run r t).state.store.framed = meets options Options.checksum ∧
      body.length = ((steps ++ [Step.run r]).flatMap Step.layout).length ∧
      (body = (steps ++ [Step.run r]).flatMap Step.layout ↔
        RepeatsTrailers options (steps ++ [.run r])) := by
  obtain ⟨left, hleft, hlen, hiff⟩ := h.left
  obtain ⟨rfl, bytes, hhas, -⟩ := h
  obtain ⟨hhas', hoptions, hframed⟩ := hhas.run hr hleft hok
  have hlayout : (steps ++ [Step.run r]).flatMap Step.layout =
      steps.flatMap Step.layout ++ r.layout := by
    rw [List.flatMap_append, List.flatMap_singleton]
    rfl
  refine ⟨left ++ r.layout, hhas', hoptions, hframed, ?_, ?_⟩
  · rw [hlayout, List.length_append, List.length_append, hlen]
  · rw [hlayout, List.append_left_inj]
    exact hiff r

theorem Follows.run {r : Record} (hr : r.isData) (h : Follows options before steps t)
    (hok : (run r t).result = .ok ()) :
    Follows options before (steps ++ [.run r]) (RecordCodec.run r t).state := by
  obtain ⟨body, hhas, hoptions, hframed, hlen, hiff⟩ := h.sealed hr hok
  exact ⟨hoptions, _, hhas, .run steps r [] body rfl (List.append_nil _).symm hframed hlen hiff⟩

/-- **One step** more. -/
theorem Follows.perform {step : Step} (hstep : step.isData) (h : Follows options before steps t)
    (hok : (step.perform t).reply.succeeded) :
    Follows options before (steps ++ [step]) (step.perform t).state := by
  cases step with
  | run r => exact h.run hstep (Reply.succeeded_ran_iff.mp hok)
  | visit f => exact h.visit hstep (Reply.succeeded_visited_iff.mp hok)
  | takeError | fail _ | rewind => exact absurd hstep Bool.false_ne_true

theorem Follows.performAll {steps' : List Step} (hsteps : ∀ step ∈ steps', step.isData)
    (h : Follows options before steps t)
    (hok : ∀ reply ∈ (RecordCodec.performAll steps' t).1, reply.succeeded) :
    Follows options before (steps ++ steps') (RecordCodec.performAll steps' t).2.1 := by
  induction steps' generalizing steps t with
  | nil =>
    rw [List.append_nil]
    exact h
  | cons step steps' ih =>
    obtain ⟨hfirst, hothers⟩ := List.forall_mem_cons.mp hok
    have hnext := h.perform (hsteps step List.mem_cons_self) hfirst
    have hlast := ih (fun s hs => hsteps s (List.mem_cons_of_mem step hs)) hnext hothers
    rwa [List.append_assoc] at hlast

/-- **Nothing is lost** in a history of runs and visits that succeeds and ends with a run, exactly if
the history repeats its trailers: then the sink holds the forms of all that was visited, and their
trailer. -/
theorem sealed_iff_repeatsTrailers (context : Context) (options : Mask) (s : Sink)
    (steps : List Step) (r : Record) (hs : s.committed.length = s.length)
    (hsteps : ∀ step ∈ steps ++ [Step.run r], step.isData)
    (hok : ∀ reply ∈ (performAll (steps ++ [Step.run r]) (start context options s)).1,
      reply.succeeded) :
    let done := performAll (steps ++ [Step.run r]) (start context options s)
    done.2.1.store.sink.committed =
        s.committed ++ sealed options ((steps ++ [Step.run r]).flatMap Step.layout) ↔
      RepeatsTrailers options (steps ++ [Step.run r]) := by
  rw [performAll_concat] at hok ⊢
  obtain ⟨hfirst, hlast⟩ := List.forall_mem_append.mp hok
  have hfollows := (follows_start hs).performAll
    (fun step hstep => hsteps step (List.mem_append_left _ hstep)) hfirst
  have hrun := Reply.succeeded_ran_iff.mp (hlast _ (List.mem_singleton_self _))
  have hr : r.isData := hsteps _ (List.mem_append_right _ (List.mem_singleton_self _))
  obtain ⟨body, hhas, -, -, hlen, hiff⟩ := hfollows.sealed hr hrun
  rw [List.nil_append] at hlen hiff
  intro done
  rw [← hiff]
  have hcommitted : done.2.1.store.sink.committed = s.committed ++ sealed options body :=
    hhas.committed
  rw [hcommitted, List.append_right_inj]
  constructor
  · intro h
    exact List.append_inj_left h hlen
  · intro h
    rw [← h]

/-- A byte in a run, a word behind it, and another byte in a run. -/
def stray : List Step :=
  [.run (.strict [.leaf "a" .u8 1]), .visit (.leaf "w" .u32 0x0A0B0C0D),
    .run (.strict [.leaf "b" .u8 2])]

/-- The word is lost, and the trailer of the first run stays in its place. -/
theorem stray_lost :
    let done := performAll stray (start .storage Options.checksum (Sink.empty none))
    (∀ step ∈ stray, step.isData) ∧ (∀ reply ∈ done.1, reply.succeeded) ∧
      stray.flatMap Step.layout = [1, 10, 11, 12, 13, 2] ∧
      done.2.1.store.sink.committed =
        sealed Options.checksum ([1] ++ trailer Options.checksum [1] ++ [2]) ∧
      done.2.1.store.sink.committed ≠ sealed Options.checksum (stray.flatMap Step.layout) := by
  decide +kernel

/-- The word does not repeat the trailer that it follows. -/
theorem stray_repeats_no_trailer :
    let done := performAll stray (start .storage Options.checksum (Sink.empty none))
    (Sink.empty none).committed.length = (Sink.empty none).length ∧
      (∀ step ∈ stray, step.isData) ∧ (∀ reply ∈ done.1, reply.succeeded) ∧
      ¬RepeatsTrailers Options.checksum stray := by
  intro done
  have hsteps : ∀ step ∈ stray, step.isData := by decide
  have hok : ∀ reply ∈ done.1, reply.succeeded := by decide
  refine ⟨rfl, hsteps, hok, ?_⟩
  have hiff := sealed_iff_repeatsTrailers .storage Options.checksum (Sink.empty none)
    (stray.take 2) (.strict [.leaf "b" .u8 2]) rfl hsteps hok
  intro hrepeats
  have hlost : done.2.1.store.sink.committed ≠
      sealed Options.checksum (stray.flatMap Step.layout) := by decide +kernel
  exact hlost (hiff.mpr hrepeats)

end Encoder

end RecordCodec
