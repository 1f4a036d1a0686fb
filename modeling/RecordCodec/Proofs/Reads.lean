import RecordCodec.Cursor
import RecordCodec.Proofs.Faithful

/-!
# Acts that read

The counterpart of an act that writes: an act that finds certain bytes ahead takes them, gives what
they stand for, and leaves whatever follows them. As with writing, two acts in a row read the bytes
of one and then the bytes of the other.

What it is to have bytes ahead is the business of a decoder. For those that read through a cursor
`Reading o` says it: the state is `o` but for the place of the cursor, and these are the bytes that
the cursor has left. So nothing else of a state can change while bytes are read.

## Main definitions

* `Act.Reads` — the act, with these bytes ahead, gives this value and reports these events.
* `HoldsCursor`, `Reading` — a memory with a cursor in it, at a place.

## Main results

* `Act.Reads.bind` — two acts in a row.
* `Act.reads_cut` — a cut reads the bytes that it cuts off.
-/

namespace RecordCodec

/-! ### Cursors -/

namespace Cursor

/-- The cursor further on. -/
def advance (n : Nat) (c : Cursor) : Cursor :=
  { c with offset := c.offset + n }

theorem advance_zero (c : Cursor) : c.advance 0 = c := rfl

theorem advance_advance (n m : Nat) (c : Cursor) :
    (c.advance n).advance m = c.advance (n + m) := by
  simp only [advance, Nat.add_assoc]

theorem length_rest_le (c : Cursor) : c.rest.length ≤ c.unread := by
  rw [rest, List.length_take]
  exact Nat.min_le_left _ _

theorem length_rest {c : Cursor} (h : c.limit ≤ c.buffer.length) : c.rest.length = c.unread := by
  rw [rest, List.length_take, List.length_drop]
  exact Nat.min_eq_left (Nat.sub_le_sub_right h _)

theorem rest_advance (n : Nat) (c : Cursor) : (c.advance n).rest = c.rest.drop n := by
  have hunread : (c.advance n).unread = c.unread - n := by
    simp only [advance, unread]
    omega
  rw [rest, hunread, rest, List.drop_take, List.drop_drop]
  rfl

/-- A cursor cuts off the bytes that it has ahead. -/
theorem cut_of_rest {c : Cursor} {data more : Bytes} (h : c.rest = data ++ more) :
    c.cut data.length = .ok (data, c.advance data.length) := by
  have hle : data.length ≤ c.unread := by
    have hrest := c.length_rest_le
    rw [h, List.length_append] at hrest
    omega
  have hdata : (c.buffer.drop c.offset).take data.length = data := by
    have htake : c.rest.take data.length = (c.buffer.drop c.offset).take data.length := by
      rw [rest, List.take_take, Nat.min_eq_left hle]
    rw [← htake, h, List.take_left]
  exact cut_eq_ok_iff.mpr ⟨hle, hdata.symm, rfl⟩

/-- A cursor cuts off the bytes before a terminator. -/
theorem cutTerminated_of_rest {c : Cursor} {data more : Bytes} {field : String}
    (hzero : data.contains 0 = false) (h : c.rest = data ++ [0] ++ more) :
    c.cutTerminated field = .ok (data, c.advance (data ++ [0]).length) := by
  have hbefore : c.rest.takeWhile (· != 0) = data := by
    have hall : ∀ b ∈ data, (b != 0) = true := by
      intro b hb
      rw [bne_iff_ne]
      rintro rfl
      rw [List.contains_iff_mem.mpr hb] at hzero
      exact absurd hzero (by decide)
    rw [h, List.append_assoc, List.takeWhile_append_of_pos hall]
    simp
  have hlong : data.length ≠ c.rest.length := by
    rw [h]
    simp only [List.length_append, List.length_singleton]
    omega
  simp only [cutTerminated, hbefore, if_neg hlong]
  rw [advance, List.length_append, List.length_singleton]

end Cursor

variable {σ α β : Type}

namespace Act

/-- Where `data` lies ahead, the act succeeds with `a`, reports `log`, and leaves what follows. -/
def Reads (ready : Bytes → Traversal σ → Prop) (act : Act σ α) (a : α) (data : Bytes)
    (log : List Event) : Prop :=
  ∀ rest t, ready (data ++ rest) t → ∃ t', act t = ⟨.ok a, t', log⟩ ∧ ready rest t'

variable {ready : Bytes → Traversal σ → Prop}

theorem reads_pure (a : α) : Reads ready (pure a) a [] [] :=
  fun _ t ht => ⟨t, rfl, ht⟩

theorem reads_report (e : Event) : Reads ready (report e) () [] [e] :=
  fun _ t ht => ⟨t, rfl, ht⟩

theorem Reads.bind {act : Act σ α} {next : α → Act σ β} {a : α} {b : β} {data more : Bytes}
    {log log' : List Event} (h : Reads ready act a data log)
    (h' : Reads ready (next a) b more log') :
    Reads ready (act >>= next) b (data ++ more) (log ++ log') := by
  intro rest t ht
  rw [List.append_assoc] at ht
  obtain ⟨s, hact, hs⟩ := h _ t ht
  obtain ⟨t', hnext, ht'⟩ := h' rest s hs
  refine ⟨t', ?_, ht'⟩
  rw [bind_of_ok (a := a) (by rw [hact])]
  simp only [hact, hnext]

/-- Two acts in a row, the second of which reads no bytes. -/
theorem Reads.bind_still {act : Act σ α} {next : α → Act σ β} {a : α} {b : β} {data : Bytes}
    {log log' : List Event} (h : Reads ready act a data log)
    (h' : Reads ready (next a) b [] log') :
    Reads ready (act >>= next) b data (log ++ log') := by
  have hboth := h.bind h'
  rwa [List.append_nil] at hboth

end Act

/-! ### Memories with a cursor -/

/-- A memory with a cursor in it. -/
class HoldsCursor (σ : Type) where
  cursor : σ → Cursor
  withCursor : Cursor → σ → σ
  cursor_withCursor : ∀ c m, cursor (withCursor c m) = c
  withCursor_cursor : ∀ m, withCursor (cursor m) m = m
  withCursor_withCursor : ∀ c c' m, withCursor c' (withCursor c m) = withCursor c' m

attribute [simp] HoldsCursor.cursor_withCursor HoldsCursor.withCursor_cursor
  HoldsCursor.withCursor_withCursor

open HoldsCursor

variable [HoldsCursor σ]

namespace Traversal

/-- The traversal with its cursor further on. -/
def advance (n : Nat) (t : Traversal σ) : Traversal σ :=
  { t with store := withCursor ((cursor t.store).advance n) t.store }

theorem advance_zero (t : Traversal σ) : t.advance 0 = t := by
  rw [advance, Cursor.advance_zero, withCursor_cursor]

theorem cursor_advance (n : Nat) (t : Traversal σ) :
    cursor (t.advance n).store = (cursor t.store).advance n :=
  cursor_withCursor _ _

theorem advance_advance (n m : Nat) (t : Traversal σ) :
    (t.advance n).advance m = t.advance (n + m) := by
  simp only [advance, cursor_withCursor, withCursor_withCursor, Cursor.advance_advance]

end Traversal

/-- The state is `o`, further on in its input, and has these bytes ahead. -/
def Reading (o : Traversal σ) (bs : Bytes) (t : Traversal σ) : Prop :=
  ∃ n, t = o.advance n ∧ (cursor t.store).rest = bs

theorem reading_self (o : Traversal σ) : Reading o (cursor o.store).rest o :=
  ⟨0, o.advance_zero.symm, rfl⟩

theorem Reading.advance {o t : Traversal σ} {data more : Bytes}
    (h : Reading o (data ++ more) t) : Reading o more (t.advance data.length) := by
  obtain ⟨n, rfl, hrest⟩ := h
  refine ⟨n + data.length, o.advance_advance n data.length, ?_⟩
  rw [Traversal.cursor_advance, Cursor.rest_advance, hrest, List.drop_left]

namespace Act

/-- Cuts bytes off the input by one of the cursor's ways to cut. -/
def cut (f : Cursor → Except Error (Bytes × Cursor)) : Act σ Bytes := do
  check
  let m ← store
  let (bs, c) ← require (f (cursor m))
  modifyStore (withCursor c)
  pure bs

theorem cut_of_ok {f : Cursor → Except Error (Bytes × Cursor)} {t : Traversal σ} {bs : Bytes}
    {n : Nat} (ht : t.error = none)
    (hf : f (cursor t.store) = .ok (bs, (cursor t.store).advance n)) :
    cut f t = ⟨.ok bs, t.advance n, []⟩ := by
  have hcheck : t.check = .ok () := Traversal.check_eq_ok_iff.mpr ht
  simp only [cut, bind_apply, check, hcheck, store, hf, require, done, modifyStore, pure_apply,
    List.append_nil]
  rfl

theorem cut_of_error {f : Cursor → Except Error (Bytes × Cursor)} {t : Traversal σ} {e : Error}
    (ht : t.error = none) (hf : f (cursor t.store) = .error e) :
    cut f t = ⟨.error e, { t with error := some e }, [.failed t.direction e]⟩ := by
  have hcheck : t.check = .ok () := Traversal.check_eq_ok_iff.mpr ht
  simp only [cut, bind_apply, check, hcheck, store, hf, require, fail, ht, List.nil_append]

/-- **A cut reads the bytes that it cuts off.** -/
theorem reads_cut {o : Traversal σ} (ho : o.error = none)
    {f : Cursor → Except Error (Bytes × Cursor)} {bs data : Bytes}
    (hf : ∀ c more, c.rest = data ++ more → f c = .ok (bs, c.advance data.length)) :
    Reads (Reading o) (cut f) bs data [] := by
  intro rest t ht
  refine ⟨t.advance data.length, ?_, ht.advance⟩
  obtain ⟨n, rfl, hrest⟩ := ht
  exact cut_of_ok ho (hf _ _ hrest)

end Act

end RecordCodec
