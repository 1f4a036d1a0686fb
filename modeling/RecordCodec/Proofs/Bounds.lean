import RecordCodec.Proofs.Reads

/-!
# A cursor stays in its bytes

A cut moves a cursor forward, never past the end of what may be read, and never to other bytes. So
the bytes that a cursor has ahead say where it is (`Cursor.Whole.offset_add`), which they would not
for a cursor that may stand behind its end.

## Main definitions

* `Cursor.Whole`, `Cursor.Inside` — a cursor in all of its bytes, and in those that it may read.
* `Cursor.GoesOn` — what a decoder may cut off its input with.

## Main results

* `Cursor.goesOn_cut`, `Cursor.goesOn_cutTerminated` — the two ways to cut.
-/

namespace RecordCodec

namespace Cursor

/-- The cursor reads these bytes, may read all of them, and stands inside. -/
structure Whole (bs : Bytes) (c : Cursor) : Prop where
  buffer : c.buffer = bs
  limit : c.limit = bs.length
  inside : c.offset ≤ bs.length

variable {bs data : Bytes} {c c' : Cursor}

theorem whole_ofBytes (bs : Bytes) : (ofBytes bs).Whole bs :=
  ⟨rfl, rfl, Nat.zero_le _⟩

theorem Whole.limit_le (h : c.Whole bs) : c.limit ≤ c.buffer.length :=
  Nat.le_of_eq (h.limit.trans (congrArg List.length h.buffer.symm))

theorem Whole.rest_eq (h : c.Whole bs) : c.rest = bs.drop c.offset := by
  have hall : (bs.drop c.offset).length = c.unread := by
    rw [List.length_drop, unread, h.limit]
  rw [rest, h.buffer, ← hall, List.take_length]

/-- What was read and what is ahead are all the bytes. -/
theorem Whole.offset_add (h : c.Whole bs) : c.offset + c.rest.length = bs.length := by
  have hinside := h.inside
  rw [h.rest_eq, List.length_drop]
  omega

/-- What is ahead says where the cursor is. -/
theorem Whole.offset_of_rest {more : Bytes} (h : c.Whole (data ++ more)) (hrest : c.rest = more) :
    c.offset = data.length := by
  have hall := h.offset_add
  rw [hrest, List.length_append] at hall
  omega

theorem Whole.rewind (h : c.Whole bs) : c.rewind.Whole bs :=
  ⟨h.buffer, h.limit, Nat.zero_le _⟩

/-- The cursor reads these bytes, and stands inside of what may be read. -/
structure Inside (bs : Bytes) (c : Cursor) : Prop where
  buffer : c.buffer = bs
  offset : c.offset ≤ c.limit
  limit : c.limit ≤ bs.length

theorem Whole.isInside (h : c.Whole bs) : c.Inside bs :=
  ⟨h.buffer, by rw [h.limit]; exact h.inside, Nat.le_of_eq h.limit⟩

/-! ### Cuts -/

/-- The cut moves the cursor on, but not past the end of what may be read, or it fails with an error
that it may fail with. -/
structure GoesOn (fault : Cursor → Error → Prop) (f : Cursor → Except Error (Bytes × Cursor)) :
    Prop where
  moves : ∀ {c c' bs}, f c = .ok (bs, c') →
    ∃ n, c' = c.advance n ∧ (c.offset ≤ c.limit → c'.offset ≤ c'.limit)
  fails : ∀ {c e}, f c = .error e → fault c e

theorem goesOn_cut {fault : Cursor → Error → Prop}
    (h : ∀ c n, c.unread < n → fault c (.bufferExhausted n c.unread)) (n : Nat) :
    GoesOn fault (cut n) where
  moves {c c' bs} hcut := by
    obtain ⟨hn, -, rfl⟩ := cut_eq_ok_iff.mp hcut
    refine ⟨n, rfl, fun hinside => ?_⟩
    rw [unread] at hn
    show c.offset + n ≤ c.limit
    omega
  fails {c e} hcut := by
    obtain ⟨hless, rfl⟩ := cut_eq_error_iff.mp hcut
    exact h c n hless

theorem goesOn_cutTerminated {fault : Cursor → Error → Prop} {field : String}
    (h : ∀ c, fault c (.unterminatedField field)) : GoesOn fault (cutTerminated field) where
  moves {c c' bs} hcut := by
    simp only [cutTerminated] at hcut
    split at hcut
    · cases hcut
    · next hfound =>
      obtain ⟨-, rfl⟩ := Prod.mk.inj (Except.ok.inj hcut)
      refine ⟨(c.rest.takeWhile (· != 0)).length + 1, rfl, fun hinside => ?_⟩
      have hle : (c.rest.takeWhile (· != 0)).length ≤ c.rest.length :=
        (List.takeWhile_prefix _).length_le
      have hrest := c.length_rest_le
      rw [unread] at hrest
      show c.offset + ((c.rest.takeWhile (· != 0)).length + 1) ≤ c.limit
      omega
  fails {c e} hcut := by
    simp only [cutTerminated] at hcut
    split at hcut
    · obtain rfl := Except.error.inj hcut
      exact h c
    · cases hcut

end Cursor

end RecordCodec
