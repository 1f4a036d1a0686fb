import RecordCodec.Proofs.Binary.Decoding
import RecordCodec.Proofs.Checksum
import RecordCodec.Proofs.Walk

/-!
# Corrupted input is refused

Input that ends in a trailer, and that was changed in a window of four bytes or in the trailer, is
refused by a decoder before it reads anything. If the window lies in front of the trailer, the
checksum that is taken of the changed bytes is not the old one; if the trailer was changed, the
number in it is not the old one, and the bytes in front of it are. A change across the border
between the two is another matter: it can be one that happens to be right again.

## Main definitions

* `DiffersWithin` — two byte strings of one length that are the same outside of a window.

## Main results

* `crc32_ne_of_differsWithin` — the number in the trailer is not the checksum of the rest.
* `Decoder.refuses_corrupted` — every run fails, and changes neither its record nor the cursor.
-/

namespace RecordCodec

/-! ### Windows -/

/-- A byte string is what stands before a window, in it, and behind it. -/
theorem split_at_window (bs : Bytes) (start width : Nat) :
    bs.take start ++ (bs.drop start).take width ++ bs.drop (start + width) = bs := by
  rw [List.append_assoc, ← List.drop_drop, List.take_append_drop, List.take_append_drop]

/-- The byte strings have one length, and are the same at all places but the `width` from `start`
on. -/
structure DiffersWithin (start width : Nat) (bs cs : Bytes) : Prop where
  length : cs.length = bs.length
  outside : ∀ i, i < start ∨ start + width ≤ i → cs[i]? = bs[i]?

namespace DiffersWithin

variable {start width : Nat} {bs bs' cs cs' : Bytes}

theorem take_eq {n : Nat} (h : DiffersWithin start width bs cs) (hn : n ≤ start) :
    cs.take n = bs.take n := by
  refine List.ext_getElem? ?_
  intro i
  rw [List.getElem?_take, List.getElem?_take]
  by_cases hi : i < n
  · rw [if_pos hi, if_pos hi, h.outside i (.inl (Nat.lt_of_lt_of_le hi hn))]
  · rw [if_neg hi, if_neg hi]

theorem drop_eq {n : Nat} (h : DiffersWithin start width bs cs) (hn : start + width ≤ n) :
    cs.drop n = bs.drop n := by
  refine List.ext_getElem? ?_
  intro i
  rw [List.getElem?_drop, List.getElem?_drop, h.outside (n + i) (.inr (by omega))]

/-- Outside of the window the byte strings are the same, so all depends on the bytes in it. -/
theorem eq_of_window (h : DiffersWithin start width bs cs)
    (hwindow : (cs.drop start).take width = (bs.drop start).take width) : cs = bs := by
  rw [← split_at_window cs start width, h.take_eq (Nat.le_refl _), hwindow,
    h.drop_eq (Nat.le_refl _), split_at_window]

/-- The front parts of two byte strings differ in the same window. -/
theorem of_append (h : DiffersWithin start width (bs ++ bs') (cs ++ cs'))
    (hlen : cs.length = bs.length) : DiffersWithin start width bs cs := by
  refine ⟨hlen, ?_⟩
  intro i hi
  by_cases hfront : i < bs.length
  · have hsame := h.outside i hi
    rwa [List.getElem?_append_left (hlen ▸ hfront), List.getElem?_append_left hfront] at hsame
  · rw [List.getElem?_eq_none (by omega), List.getElem?_eq_none (by omega)]

end DiffersWithin

/-! ### Checksums -/

/-- Bytes that differ in a window of four have different checksums. -/
theorem crc32_ne {start width : Nat} {bs cs : Bytes} (h : DiffersWithin start width bs cs)
    (hwidth : width ≤ 4) (hne : cs ≠ bs) : crc32 cs ≠ crc32 bs := by
  intro hsum
  refine hne (h.eq_of_window ?_)
  have hlen : ((cs.drop start).take width).length = ((bs.drop start).take width).length := by
    simp only [List.length_take, List.length_drop, h.length]
  have hshort : ((cs.drop start).take width).length ≤ 4 :=
    Nat.le_trans (List.length_take_le _ _) hwidth
  rw [← split_at_window cs start width, ← split_at_window bs start width,
    h.take_eq (Nat.le_refl _), h.drop_eq (Nat.le_refl _)] at hsum
  exact crc32_window_injective hlen hshort hsum

/-- **After a change the trailer is wrong**: it was made in four bytes of the body, or in the
trailer. -/
theorem crc32_ne_of_differsWithin {start width : Nat} {body body' tail : Bytes}
    (h : DiffersWithin start width (body ++ bigEndian 4 (crc32 body).toNat) (body' ++ tail))
    (hlen : body'.length = body.length)
    (hne : body' ++ tail ≠ body ++ bigEndian 4 (crc32 body).toNat)
    (hplace : width ≤ 4 ∧ start + width ≤ body.length ∨ body.length ≤ start) :
    UInt32.ofNat (ofBigEndian tail) ≠ crc32 body' := by
  have htail : tail.length = 4 := by
    have hall := h.length
    rw [List.length_append, List.length_append, hlen, length_bigEndian] at hall
    omega
  rcases hplace with ⟨hwidth, hfront⟩ | hbehind
  · have hsame : tail = bigEndian 4 (crc32 body).toNat := by
      have hdrop := h.drop_eq hfront
      rwa [List.drop_left, ← hlen, List.drop_left] at hdrop
    have hbody : body' ≠ body := by
      rintro rfl
      exact hne (by rw [hsame])
    rw [hsame, ofBigEndian_word]
    exact (crc32_ne (h.of_append hlen) hwidth hbody).symm
  · have hsame : body' = body := by
      have htake := h.take_eq hbehind
      rwa [List.take_left, ← hlen, List.take_left] at htake
    subst hsame
    intro hsum
    refine hne ?_
    rw [← hsum, bigEndian_ofBigEndian_word htail]

/-! ### Runs -/

namespace Decoder

/-- A decoder whose trailer is wrong stores that, and does nothing else. -/
theorem run_of_mismatch {t : Traversal Decoder} {body tail : Bytes} (ht : t.error = none)
    (hopen : prepare t = verify t) (htail : tail.length = wordSize)
    (hbuffer : t.store.cursor.buffer = body ++ tail)
    (hwrong : UInt32.ofNat (ofBigEndian tail) ≠ crc32 body) (r : Record) :
    let e := Error.checksum (UInt32.ofNat (ofBigEndian tail)) (crc32 body)
    run r t = ⟨.error e, r, { t with error := some e }, [.failed t.direction e]⟩ := by
  intro e
  have hfail : (Codec.openRun : Act Decoder Unit) t =
      ⟨.error e, { t with error := some e }, [.failed t.direction e]⟩ := by
    show prepare t = _
    rw [hopen, verify_eq htail hbuffer, if_neg hwrong, Act.fail, ht]
  simp only [run, ht, hfail]

/-- **Corrupted input is refused.** Sealed bytes that were changed in a window of four bytes in
front of the trailer, or in the trailer, make every run fail with two different checksums. No record
changes, and nothing is read. -/
theorem refuses_corrupted (context : Context) (options : Mask) (body corrupted : Bytes)
    (start width : Nat) (hchecksum : meets options Options.checksum)
    (hwithin : DiffersWithin start width (sealed options body) corrupted)
    (hne : corrupted ≠ sealed options body)
    (hplace : width ≤ 4 ∧ start + width ≤ body.length ∨ body.length ≤ start) :
    ∃ stored computed, stored ≠ computed ∧ ∀ rs : List Record,
      let done := performAll (rs.map .run) (Decoder.start context options corrupted)
      done.1 = rs.map (.ran (.error (.checksum stored computed))) ∧
        done.2.1.store.cursor.offset = 0 := by
  have hsealed : sealed options body = body ++ bigEndian 4 (crc32 body).toNat := by
    rw [sealed, trailer_of_meets hchecksum]
  rw [hsealed] at hwithin hne
  -- Whatever the input has become, it is some bytes and a trailer.
  obtain ⟨body', tail, rfl, hlen⟩ : ∃ body' tail, corrupted = body' ++ tail ∧
      body'.length = body.length := by
    refine ⟨corrupted.take body.length, corrupted.drop body.length,
      (List.take_append_drop _ _).symm, List.length_take_of_le ?_⟩
    rw [hwithin.length, List.length_append]
    exact Nat.le_add_right _ _
  have htail : tail.length = wordSize := by
    have hall := hwithin.length
    rw [List.length_append, List.length_append, hlen, length_bigEndian] at hall
    exact Nat.add_left_cancel hall
  have hwrong := crc32_ne_of_differsWithin hwithin hlen hne hplace
  refine ⟨_, _, hwrong, ?_⟩
  intro rs
  cases rs with
  | nil => exact ⟨rfl, rfl⟩
  | cons r rs =>
    have hopen := prepare_start_eq_verify context (body' ++ tail) hchecksum
    have hrun := run_of_mismatch rfl hopen htail rfl hwrong r
    have hruns := performAll_run_cons hrun (performAll_of_error rfl rs)
    rw [List.map_cons, hruns]
    exact ⟨rfl, rfl⟩

/-- The last of three bytes was changed. -/
theorem refuses_corrupted_byte :
    ∃ stored computed, stored ≠ computed ∧ ∀ rs : List Record,
      let done := performAll (rs.map .run) (Decoder.start .network Options.checksum
        ([1, 2, 7] ++ bigEndian 4 (crc32 [1, 2, 3]).toNat))
      done.1 = rs.map (.ran (.error (.checksum stored computed))) ∧
        done.2.1.store.cursor.offset = 0 := by
  have hwithin : DiffersWithin 2 1 (sealed Options.checksum [1, 2, 3])
      ([1, 2, 7] ++ bigEndian 4 (crc32 [1, 2, 3]).toNat) := by
    refine ⟨rfl, fun i hi => ?_⟩
    match i, hi with
    | 0, _ => rfl
    | 1, _ => rfl
    | 2, hi => omega
    | i + 3, _ => rfl
  exact refuses_corrupted .network Options.checksum [1, 2, 3] _ 2 1 (by decide) hwithin nofun
    (.inl (by decide))

end Decoder

end RecordCodec
