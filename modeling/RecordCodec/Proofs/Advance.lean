import RecordCodec.Proofs.Bounds
import RecordCodec.Proofs.Passive

/-!
# Decoders that only go on

Whatever bytes a decoder is given, there is little that it can do with them. It moves its cursor on
inside the bytes that it may read, or it stores an error, and then it stands still. Nothing else of
the state changes. `Advance` says this of the states before and after any number of acts, so it is a
relation that every act leads along, every leaf, and every record of data.

Which errors there can be is for each decoder to say. The error may depend on the cursor, which is
the cursor at the moment of the failure still when anyone looks, since nothing moved it after that.

## Main definitions

* `Advance` — a decoder has gone on from one state to the other.
* `Act.Advances` — the act goes on, and its error is stored.
* `Codec.Advances` — all acts on leaves and records go on.

## Main results

* `Act.Advances.bind`, `Act.advances_cut` — acts that go on.
* `Codec.Advances.leads`, `Codec.Advances.freezing` — records of data go on.
-/

namespace RecordCodec

open HoldsCursor

variable {σ α β : Type} [HoldsCursor σ] {fault : Cursor → Error → Prop}

/-- A decoder has gone on from the first state to the second. -/
structure Advance (fault : Cursor → Error → Prop) (t u : Traversal σ) : Prop where
  /-- Only the place of the cursor and the stored error may be different. -/
  moved : ∃ n, u = { t.advance n with error := u.error }
  /-- The cursor has not left what may be read. -/
  inside : (cursor t.store).offset ≤ (cursor t.store).limit →
    (cursor u.store).offset ≤ (cursor u.store).limit
  /-- Where an error was stored, nothing happened. -/
  frozen : t.error ≠ none → u = t
  /-- A new error is one that there may be, for the cursor as it is. -/
  signals : t.error = none → ∀ e, u.error = some e → fault (cursor u.store) e

namespace Advance

variable {t u w : Traversal σ}

theorem refl (t : Traversal σ) : Advance fault t t where
  moved := ⟨0, by rw [t.advance_zero]⟩
  inside h := h
  frozen _ := rfl
  signals ht e he := by
    rw [ht] at he
    cases he

theorem trans (h : Advance fault t u) (h' : Advance fault u w) : Advance fault t w where
  moved := by
    obtain ⟨n, hu⟩ := h.moved
    obtain ⟨m, hw⟩ := h'.moved
    refine ⟨n + m, ?_⟩
    rw [hw, hu, ← t.advance_advance]
    rfl
  inside ht := h'.inside (h.inside ht)
  frozen ht := by
    obtain rfl := h.frozen ht
    exact h'.frozen ht
  signals ht e he := by
    rcases Option.eq_none_or_eq_some u.error with hu | ⟨stored, hu⟩
    · exact h'.signals hu e he
    · obtain rfl := h'.frozen (by rw [hu]; exact Option.some_ne_none stored)
      exact h.signals ht e he

/-- A decoder that has stored an error. -/
theorem of_fail {e : Error} (h : fault (cursor t.store) e) :
    Advance fault t ((Act.fail e : Act σ α) t).state := by
  rw [Act.fail]
  rcases Option.eq_none_or_eq_some t.error with ht | ⟨stored, ht⟩
  · rw [ht]
    refine ⟨⟨0, by rw [t.advance_zero]⟩, fun hin => hin, fun hne => absurd ht hne, ?_⟩
    intro _ e' he'
    obtain rfl := Option.some.inj he'
    exact h
  · rw [ht]
    exact refl t

/-- A decoder whose cursor has moved. -/
theorem of_move {n : Nat} (ht : t.error = none)
    (h : (cursor t.store).offset ≤ (cursor t.store).limit →
      ((cursor t.store).advance n).offset ≤ ((cursor t.store).advance n).limit) :
    Advance fault t (t.advance n) where
  moved := ⟨n, rfl⟩
  inside hin := by
    rw [t.cursor_advance]
    exact h hin
  frozen hne := absurd ht hne
  signals _ e he := by
    have hsame : (t.advance n).error = t.error := rfl
    rw [hsame, ht] at he
    cases he

theorem cursor_eq (h : Advance fault t u) :
    ∃ n, cursor u.store = (cursor t.store).advance n := by
  obtain ⟨n, hu⟩ := h.moved
  refine ⟨n, ?_⟩
  rw [hu]
  exact t.cursor_advance n

/-- **A decoder never goes back** by itself. -/
theorem offset_le (h : Advance fault t u) :
    (cursor t.store).offset ≤ (cursor u.store).offset := by
  obtain ⟨n, hu⟩ := h.cursor_eq
  rw [hu]
  exact Nat.le_add_right _ n

theorem stays_inside {bs : Bytes} (h : Advance fault t u) (ht : (cursor t.store).Inside bs) :
    (cursor u.store).Inside bs := by
  have hinside := h.inside ht.offset
  obtain ⟨n, hu⟩ := h.cursor_eq
  rw [hu] at hinside ⊢
  exact ⟨ht.buffer, hinside, ht.limit⟩

theorem stays_whole {bs : Bytes} (h : Advance fault t u) (ht : (cursor t.store).Whole bs) :
    (cursor u.store).Whole bs := by
  have hinside := h.stays_inside ht.isInside
  obtain ⟨n, hu⟩ := h.cursor_eq
  rw [hu] at hinside ⊢
  exact ⟨ht.buffer, ht.limit, Nat.le_trans hinside.offset hinside.limit⟩

end Advance

/-! ### Acts -/

/-- The act goes on, and the error that it gives is stored. -/
structure Act.Advances (fault : Cursor → Error → Prop) (act : Act σ α) : Prop where
  moves : ∀ t, Advance fault t (act t).state
  tells : act.Tells

namespace Act

theorem advances_pure (a : α) : (pure a : Act σ α).Advances fault :=
  ⟨.refl, tells_pure a⟩

theorem advances_report (e : Event) : (report e : Act σ Unit).Advances fault :=
  ⟨.refl, fun _ _ => nofun⟩

theorem advances_store : (store : Act σ σ).Advances fault :=
  ⟨.refl, fun _ _ => nofun⟩

theorem advances_fail {e : Error} (h : ∀ c, fault c e) : (fail e : Act σ α).Advances fault :=
  ⟨fun t => .of_fail (h (cursor t.store)), tells_fail e⟩

theorem Advances.bind {act : Act σ α} {next : α → Act σ β} (h : act.Advances fault)
    (hnext : ∀ a, (next a).Advances fault) : (act >>= next).Advances fault where
  moves t := by
    cases ha : (act t).result with
    | error e =>
      rw [bind_of_error ha]
      exact h.moves t
    | ok a =>
      rw [bind_of_ok ha]
      exact (h.moves t).trans ((hnext a).moves _)
  tells := h.tells.bind fun a => (hnext a).tells

/-- **A cut goes on.** -/
theorem advances_cut {f : Cursor → Except Error (Bytes × Cursor)} (hf : Cursor.GoesOn fault f) :
    (cut f : Act σ Bytes).Advances fault := by
  have hrefuses : (cut f : Act σ Bytes).Refuses := refuses_check.bind _
  have hcases : ∀ t : Traversal σ, t.error = none →
      (∃ e, fault (cursor t.store) e ∧ (cut f t).result = .error e ∧
        (cut f t).state = { t with error := some e }) ∨
      ∃ bs n, (cut f t).result = .ok bs ∧ (cut f t).state = t.advance n ∧
        ((cursor t.store).offset ≤ (cursor t.store).limit →
          ((cursor t.store).advance n).offset ≤ ((cursor t.store).advance n).limit) := by
    intro t ht
    cases hcut : f (cursor t.store) with
    | error e =>
      rw [cut_of_error ht hcut]
      exact .inl ⟨e, hf.fails hcut, rfl, rfl⟩
    | ok cutOff =>
      obtain ⟨bs, c⟩ := cutOff
      obtain ⟨n, rfl, hinside⟩ := hf.moves hcut
      rw [cut_of_ok ht hcut]
      exact .inr ⟨bs, n, rfl, rfl, hinside⟩
  refine ⟨fun t => ?_, .of_refuses hrefuses fun t ht e he => ?_⟩
  · rcases Option.eq_none_or_eq_some t.error with ht | ⟨stored, ht⟩
    · rcases hcases t ht with ⟨e, he, -, hstate⟩ | ⟨bs, n, -, hstate, hinside⟩
      · have hfail := Advance.of_fail (α := Unit) he
        rw [fail, ht] at hfail
        rw [hstate]
        exact hfail
      · rw [hstate]
        exact .of_move ht hinside
    · rw [(hrefuses t stored ht).2]
      exact .refl t
  · rcases hcases t ht with ⟨e', -, hresult, hstate⟩ | ⟨bs, n, hresult, -⟩
    · rw [hresult] at he
      rw [hstate, ← Except.error.inj he]
    · rw [hresult] at he
      cases he

end Act

/-! ### Codecs -/

/-- A codec that goes on at leaves and at the ends of records. -/
structure Codec.Advances (σ : Type) [Codec σ] [HoldsCursor σ] (fault : Cursor → Error → Prop) :
    Prop where
  visit : ∀ (kind : Kind) (name : String) (v : kind.Value),
    (Codec.visit (σ := σ) kind name v).Advances fault
  close : (Codec.close : Act σ Unit).Advances fault
  unread : ∀ m : σ, Codec.unread m = some (cursor m).unread
  exhausted : ∀ c n, c.unread < n → fault c (.bufferExhausted n c.unread)

namespace Codec.Advances

variable [Codec σ]

theorem freezing (h : Codec.Advances σ fault) : Codec.Freezing σ where
  visit_tells kind name v := (h.visit kind name v).tells
  visit_freezes kind name v t := ((h.visit kind name v).moves t).frozen
  close_tells := h.close.tells
  close_freezes t := (h.close.moves t).frozen

/-- **Records of data go on.** -/
theorem leads (h : Codec.Advances σ fault) : Codec.Leads (σ := σ) (Advance fault) where
  refl := .refl
  trans := .trans
  visit kind name v := (h.visit kind name v).moves
  close := h.close.moves
  short {count left t} hshort := by
    obtain ⟨hunread, hless⟩ := Option.filter_eq_some_iff.mp hshort
    rw [h.unread] at hunread
    obtain rfl := Option.some.inj hunread
    exact .of_fail (h.exhausted _ _ (of_decide_eq_true hless))

end Codec.Advances

end RecordCodec
