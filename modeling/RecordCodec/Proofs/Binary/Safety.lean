import RecordCodec.Proofs.Binary.Advance
import RecordCodec.Proofs.Orderly

/-!
# Safety of the binary decoder

The input of a decoder may be anything: lengths and counts that are not true, blocks without their
terminators, a trailer that is wrong, or bytes too few to have one. Nothing of it leads the decoder
out of the input.

The one act that does not only go on is the check of a trailer, which moves the end of what may be
read to in front of the trailer. It must not happen with the cursor behind that place already
(`Decoder.prepare_inside_iff`). In an orderly history it does not: as long as the trailer is not
checked, nothing is read, and the cursor is where it was at the start. A history that visits fields
before its first run may get there, and then nothing is promised.

## Main definitions

* `Decoder.Ready` — the trailer is out of the way, or there is none.

## Main results

* `Decoder.verify_cases` — what may come of a trailer.
* `Decoder.prepare_inside_iff` — when the check of a trailer leaves the cursor inside.
* `Decoder.guards` — the runs of the decoder begin well.
-/

namespace RecordCodec

namespace Decoder

/-- Leaves may be visited: the trailer was found right, or the options ask for none. -/
def Ready (t : Traversal Decoder) : Prop :=
  t.store.verified || !t.has Options.checksum

/-! ### Trailers -/

/-- **What may come of a trailer**: the input is too short to have one, or it is wrong, or it is out
of the way. -/
theorem verify_cases (t : Traversal Decoder) :
    (t.store.cursor.buffer.length < wordSize ∧
      verify t = Act.fail (.bufferExhausted wordSize t.store.cursor.buffer.length) t) ∨
    (∃ stored computed, stored ≠ computed ∧ verify t = Act.fail (.checksum stored computed) t) ∨
    ∃ log, verify t = ⟨.ok (), { t with store :=
      ⟨{ t.store.cursor with limit := t.store.cursor.buffer.length - wordSize }, true⟩ }, log⟩ := by
  by_cases hshort : t.store.cursor.buffer.length < wordSize
  · refine .inl ⟨hshort, ?_⟩
    simp only [verify, Act.bind_apply, Act.store, if_pos hshort, List.nil_append]
  · let size := t.store.cursor.buffer.length - wordSize
    have htail : (t.store.cursor.buffer.drop size).length = wordSize := by
      rw [List.length_drop]
      omega
    have hbody : (t.store.cursor.buffer.take size).length = size :=
      List.length_take_of_le (Nat.sub_le _ _)
    have hverify := verify_eq htail (List.take_append_drop size t.store.cursor.buffer).symm
    rw [hbody] at hverify
    by_cases hright : UInt32.ofNat (ofBigEndian (t.store.cursor.buffer.drop size)) =
        crc32 (t.store.cursor.buffer.take size)
    · rw [if_pos hright] at hverify
      exact .inr (.inr ⟨_, hverify⟩)
    · rw [if_neg hright] at hverify
      exact .inr (.inl ⟨_, _, hright, hverify⟩)

/-- A trailer that was found right is out of the way. -/
theorem verify_of_ok {t : Traversal Decoder} (h : (verify t).result = .ok ()) :
    ∃ log, verify t = ⟨.ok (), { t with store :=
      ⟨{ t.store.cursor with limit := t.store.cursor.buffer.length - wordSize }, true⟩ }, log⟩ := by
  have hfail (e : Error) : verify t ≠ Act.fail e t := by
    intro hverify
    obtain ⟨stored, hresult, -⟩ := Act.error_fail (α := Unit) e t
    rw [hverify, hresult] at h
    cases h
  rcases verify_cases t with ⟨-, hverify⟩ | ⟨stored, computed, -, hverify⟩ | hright
  · exact absurd hverify (hfail _)
  · exact absurd hverify (hfail _)
  · exact hright

theorem prepare_of_not_ready {t : Traversal Decoder} (h : ¬Ready t) : prepare t = verify t := by
  rw [Ready] at h
  simp only [prepare, Act.bind_apply, Act.state, if_neg h, List.nil_append]

theorem prepare_ok {t : Traversal Decoder} (h : (prepare t).result = .ok ()) :
    Ready (prepare t).state ∧ (prepare t).state.error = t.error := by
  by_cases hready : Ready t
  · rw [prepare_of_settled hready]
    exact ⟨hready, rfl⟩
  · rw [prepare_of_not_ready hready] at h ⊢
    obtain ⟨log, hverify⟩ := verify_of_ok h
    rw [hverify]
    exact ⟨rfl, rfl⟩

theorem prepare_tells : prepare.Tells := by
  intro t e he
  by_cases hready : Ready t
  · rw [prepare_of_settled hready] at he
    cases he
  · rw [prepare_of_not_ready hready] at he ⊢
    rcases verify_cases t with ⟨-, hverify⟩ | ⟨stored, computed, -, hverify⟩ | ⟨log, hverify⟩
    · rw [hverify] at he ⊢
      exact Act.tells_fail _ t e he
    · rw [hverify] at he ⊢
      exact Act.tells_fail _ t e he
    · rw [hverify] at he
      cases he

/-! ### Moments -/

theorem ready_of_advance {t u : Traversal Decoder} (h : Advance Fault t u) (ht : Ready t) :
    Ready u := by
  obtain ⟨n, hu⟩ := h.moved
  rw [hu]
  exact ht

theorem keeps_ready : Codec.Keeps Ready where
  ignores _ ht _ := ht
  visit kind name v t ht := ready_of_advance ((advances_read kind name v).moves t) ht
  close _ ht := ht
  openRun t ht := by
    show Ready (prepare t).state
    rw [prepare_of_settled ht]
    exact ht
  closeRun _ ht := ht
  rewind _ ht := ht

/-- The cursor is inside of the input, and at the start of it while the trailer is not checked. -/
structure Ranged (bs : Bytes) (t : Traversal Decoder) : Prop where
  inside : t.store.cursor.Inside bs
  start : ¬Ready t → t.store.cursor = .ofBytes bs

variable {bs : Bytes} {t : Traversal Decoder}

theorem ignoresError_ranged : IgnoresError (Ranged bs) :=
  fun _ h _ => ⟨h.inside, h.start⟩

theorem Ranged.prepare (h : Ranged bs t) : Ranged bs (prepare t).state := by
  by_cases hready : Ready t
  · rw [prepare_of_settled hready]
    exact h
  · have hstart := h.start hready
    have hfail : ∀ e, Ranged bs ((Act.fail e : Act Decoder Unit) t).state :=
      fun e => Act.keeps_fail ignoresError_ranged e t h
    rw [prepare_of_not_ready hready]
    rcases verify_cases t with ⟨-, hverify⟩ | ⟨stored, computed, -, hverify⟩ | ⟨log, hverify⟩
    · rw [hverify]
      exact hfail _
    · rw [hverify]
      exact hfail _
    · rw [hverify, hstart]
      exact ⟨⟨rfl, Nat.zero_le _, Nat.sub_le _ _⟩, fun hno => absurd rfl hno⟩

/-- **The check of a trailer** leaves the cursor inside just if the trailer has not been read into. -/
theorem prepare_inside_iff (h : t.store.cursor.Inside bs) (hready : ¬Ready t)
    (hok : (Decoder.prepare t).result = .ok ()) :
    (Decoder.prepare t).state.store.cursor.Inside bs ↔
      t.store.cursor.offset ≤ bs.length - wordSize := by
  rw [prepare_of_not_ready hready] at hok ⊢
  obtain ⟨log, hverify⟩ := verify_of_ok hok
  rw [hverify, h.buffer]
  constructor
  · exact fun hinside => hinside.offset
  · exact fun hoffset => ⟨h.buffer, hoffset, Nat.sub_le _ _⟩

-- two bytes are read of one byte and its trailer, and only then is the trailer checked
example :
    let start := Decoder.start .network Options.checksum (sealed Options.checksum [7])
    let u := (performAll [.visit (.leaf "w" .u16 0), .run (.strict [])] start).2.1
    u.store.cursor.limit = 1 ∧ u.store.cursor.offset = 2 ∧ u.store.cursor.unread = 0 := by
  decide

/-- **At every moment** the cursor is inside of the input. -/
theorem ranged_of_moment {context : Context} {options : Mask}
    (ht : Codec.Moment Ready (start context options bs) t) : Ranged bs t := by
  induction ht with
  | start => exact ⟨⟨rfl, Nat.zero_le _, Nat.le_refl _⟩, fun _ => rfl⟩
  | @visit kind name v u _ hready ih =>
    have hadvance := (advances_read kind name v).moves u
    exact ⟨hadvance.stays_inside ih.inside, fun hno =>
      absurd (ready_of_advance hadvance hready) hno⟩
  | close _ ih => exact ih
  | openRun _ ih => exact ih.prepare
  | closeRun _ ih => exact ih
  | rewind _ ih =>
    refine ⟨⟨ih.inside.buffer, Nat.zero_le _, ih.inside.limit⟩, fun hno => ?_⟩
    exact congrArg Cursor.rewind (ih.start hno)
  | error e _ ih => exact ignoresError_ranged _ ih e

theorem prepare_signals (h : Ranged bs t) (ht : t.error = none) (e : Error)
    (he : (prepare t).state.error = some e) : Fault (prepare t).state.store.cursor e := by
  by_cases hready : Ready t
  · rw [prepare_of_settled hready, ht] at he
    cases he
  · have hstart := h.start hready
    rw [prepare_of_not_ready hready] at he ⊢
    rcases verify_cases t with
      ⟨hshort, hverify⟩ | ⟨stored, computed, hwrong, hverify⟩ | ⟨log, hverify⟩
    · rw [hverify, Act.fail, ht] at he ⊢
      obtain rfl := Option.some.inj he
      rw [hstart] at hshort ⊢
      exact ⟨rfl, hshort⟩
    · rw [hverify, Act.fail, ht] at he ⊢
      obtain rfl := Option.some.inj he
      exact hwrong
    · rw [hverify, ht] at he
      cases he

/-- **The runs of the decoder begin well.** -/
theorem guards (context : Context) (options : Mask) (bs : Bytes) :
    Codec.Guards Fault Ready bs (start context options bs) where
  advances := advances
  keeps := keeps_ready
  opens _ h := (prepare_ok h).1
  opens_tells := prepare_tells
  opens_error _ ht h := (prepare_ok h).2.trans ht
  opens_signals _ h := prepare_signals (ranged_of_moment h)
  closes _ := rfl
  inside _ h := (ranged_of_moment h).inside

end Decoder

end RecordCodec
