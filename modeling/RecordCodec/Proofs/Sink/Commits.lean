import RecordCodec.Proofs.Sink.Writes

/-!
# What a successful act has written

`Act.Writes` says what an act does where there is room. Here is the other reading: an act that
succeeded has written its bytes. The two differ in what they take for granted. A statement about
acts of which only the success is known, in a sink that nobody has measured, can start from this one
alone.

What else had to be so for the act to succeed is `p`. An encoder refuses a value that has no binary
form, so its success shows that the value has one.

## Main definitions

* `Sink.Grown` — a sink with further bytes behind its committed ones.
* `Act.Commits` — if the act succeeds, then `p` holds, and these bytes were written.

## Main results

* `Act.Commits.bind` — two acts in a row.
* `walk_commits` — a walk that succeeds has written what its stops write.
-/

namespace RecordCodec

/-! ### Sinks that have grown -/

/-- The second sink has the committed bytes of the first, and `data` behind them. -/
structure Sink.Grown (s : Sink) (data : Bytes) (s' : Sink) : Prop where
  committed : s'.committed = s.committed ++ data
  length : s'.length = s.length + data.length

namespace Sink.Grown

variable {s s' s'' : Sink} {data more : Bytes}

theorem refl (s : Sink) : Grown s [] s :=
  ⟨(List.append_nil _).symm, rfl⟩

theorem trans (h : Grown s data s') (h' : Grown s' more s'') : Grown s (data ++ more) s'' := by
  refine ⟨?_, ?_⟩
  · rw [h'.committed, h.committed, List.append_assoc]
  · rw [h'.length, h.length, List.length_append, Nat.add_assoc]

/-- A sink that counts its committed bytes right goes on to. -/
theorem exact (h : Grown s data s') (hs : s.committed.length = s.length) :
    s'.committed.length = s'.length := by
  rw [h.committed, h.length, List.length_append, hs]

theorem of_append (h : s.append data = .ok s') : Grown s data s' := by
  rw [append] at h
  cases hroom : s.reserve data.length with
  | error e =>
    rw [hroom] at h
    cases h
  | ok u =>
    rw [hroom] at h
    obtain rfl : s.extend data = s' := Except.ok.inj h
    exact ⟨committed_extend hroom, length_extend s data⟩

end Sink.Grown

open HoldsSink

variable {σ α β : Type} [HoldsSink σ]

namespace Act

/-- With a memory that is `m` apart from its sink, if the act succeeds, then `p` holds of its value,
and it has written `data`. -/
def Commits (m : σ) (act : Act σ α) (p : α → Prop) (data : Bytes) : Prop :=
  ∀ (t : Traversal σ) (s : Sink) (a : α), t.error = none → t.store = withSink s m →
    (act t).result = .ok a →
    p a ∧ ∃ s', s.Grown data s' ∧ (act t).state = { t with store := withSink s' m }

variable {m : σ} {p : α → Prop} {q : β → Prop}

/-! ### The primitive acts -/

/-- An act that leaves the state alone has written no bytes. -/
theorem Commits.of_still {act : Act σ α}
    (h : ∀ t a, (act t).result = .ok a → p a ∧ (act t).state = t) : Commits m act p [] := by
  intro t s a _ hm ha
  obtain ⟨hp, hstate⟩ := h t a ha
  refine ⟨hp, s, .refl s, ?_⟩
  rw [hstate, ← hm]

theorem commits_pure {a : α} (h : p a) : Commits m (pure a) p [] :=
  .of_still fun _ _ ha => ⟨Except.ok.inj ha ▸ h, rfl⟩

theorem commits_check : Commits m check (fun _ => True) [] :=
  .of_still fun _ _ _ => ⟨trivial, rfl⟩

theorem commits_report (e : Event) : Commits m (report e) (fun _ => True) [] :=
  .of_still fun _ _ _ => ⟨trivial, rfl⟩

theorem commits_require {x : Except Error α} : Commits m (require x) (fun a => x = .ok a) [] := by
  cases x with
  | ok a => exact commits_pure rfl
  | error e =>
    intro t s a _ _ ha
    obtain ⟨stored, hresult, -⟩ := error_fail (α := α) e t
    rw [require, hresult] at ha
    cases ha

/-- An act that fails always has written anything. -/
theorem commits_fail (e : Error) (data : Bytes) : Commits m (fail e) p data := by
  intro t s a _ _ ha
  obtain ⟨stored, hresult, -⟩ := error_fail (α := α) e t
  rw [hresult] at ha
  cases ha

/-! ### Acts in a row -/

theorem Commits.bind {act : Act σ α} {next : α → Act σ β} {data more : Bytes}
    (h : Commits m act p data) (h' : ∀ a, p a → Commits m (next a) q more) :
    Commits m (act >>= next) q (data ++ more) := by
  intro t s b ht hm hb
  cases ha : (act t).result with
  | error e =>
    rw [bind_of_error ha] at hb
    cases hb
  | ok a =>
    obtain ⟨hp, s', hgrown, hstate⟩ := h t s a ht hm ha
    rw [bind_of_ok ha] at hb ⊢
    rw [hstate] at hb ⊢
    obtain ⟨hq, s'', hgrown', hstate'⟩ := h' a hp { t with store := withSink s' m } s' b ht rfl hb
    exact ⟨hq, s'', hgrown.trans hgrown', hstate'⟩

/-- Two acts in a row, the second of which does not need the value of the first. -/
theorem Commits.seq {act : Act σ α} {next : Act σ β} {data more : Bytes}
    (h : Commits m act p data) (h' : Commits m next q more) :
    Commits m (act >>= fun _ => next) q (data ++ more) :=
  h.bind fun _ _ => h'

theorem Commits.mono {act : Act σ α} {p' : α → Prop} {data : Bytes} (h : Commits m act p data)
    (hp : ∀ a, p a → p' a) : Commits m act p' data := by
  intro t s a ht hm ha
  obtain ⟨hpa, hrest⟩ := h t s a ht hm ha
  exact ⟨hp a hpa, hrest⟩

/-- An act that shows something, and then one that writes no bytes. -/
theorem Commits.seq_still {act : Act σ α} {next : Act σ β} {P : Prop} {data : Bytes}
    (h : Commits m act (fun _ => P) data) (h' : Commits m next (fun _ => True) []) :
    Commits m (act >>= fun _ => next) (fun _ => P) data := by
  have hnext : ∀ _ : α, P → Commits m next (fun _ => P) [] := fun _ hP => h'.mono fun _ _ => hP
  have hboth := h.bind hnext
  rwa [List.append_nil] at hboth

theorem commits_append (data : Bytes) : Commits m (append data) (fun _ => True) data := by
  intro t s a ht hm ha
  have hstore : sink t.store = s := by rw [hm, sink_withSink]
  cases happend : s.append data with
  | error e =>
    rw [append_of_refused ht (by rw [hstore, happend])] at ha
    cases ha
  | ok s' =>
    refine ⟨trivial, s', .of_append happend, ?_⟩
    rw [append_of_ok ht (by rw [hstore, happend]), hm, withSink_withSink]

end Act

/-! ### Walks -/

theorem walk_commits [Codec σ] {m : σ} {token : Stop → Bytes} {fit : Stop → Prop}
    {ss : List Stop} (h : ∀ s ∈ ss, Act.Commits m s.perform (fun _ => fit s) (token s)) :
    Act.Commits m (walk ss) (fun _ => ∀ s ∈ ss, fit s) (ss.flatMap token) := by
  induction ss with
  | nil => exact Act.commits_pure nofun
  | cons s ss ih =>
    rw [List.flatMap_cons]
    refine (h s List.mem_cons_self).bind fun _ hs => ?_
    refine (ih fun s' hs' => h s' (List.mem_cons_of_mem s hs')).mono fun _ hss => ?_
    exact List.forall_mem_cons.mpr ⟨hs, hss⟩

end RecordCodec
