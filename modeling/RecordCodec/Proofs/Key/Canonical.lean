import RecordCodec.Proofs.Key.Acceptance
import RecordCodec.Proofs.Key.RoundTrip

/-!
# Reading a key and writing it again

`KeyDecoder.runs_of_tokens` says that what was written as a key is read back. Here is the other
half, about bytes that nobody need have written: where a run of a key decoder succeeds, the record
that it gives has a key, and the key is the bytes that the run consumed, but for what the decoder
does not look at, which are the case of digits and the bytes of borders.

The decoder may be anywhere in its history: it may have run before, failed and been cleared of its
error, and been sent back to its start.

## Main definitions

* `KeyDecoder.Session` — a key decoder somewhere in its history.
* `KeyDecoder.Session.consumed` — the bytes that its next run consumes.

## Main results

* `KeyDecoder.keeps_placed` — what no history of a key decoder changes.
* `KeyDecoder.Session.spells_consumed` — what is known of a run that succeeds.
* `KeyDecoder.Session.key_undoes` — the key of what was read.
-/

namespace RecordCodec

/-- **Bytes that stops spell** are their tokens, but for the case of digits and for borders. -/
theorem Spells.keyedFrom {border data : Bytes} {ss : List Stop}
    (h : Spells (Stop.KeyedFrom border) ss data) :
    LeavesFit Leaf.isKeyable ss ∧ (ss.flatMap (Stop.keyBytes border)).length = data.length ∧
      ss.flatMap (Stop.token border) = rewritten (ss.flatMap (Stop.keyBytes border)) data := by
  have hfit := h.forall_mem (P := fun s => ∀ l, s = .leaf l → l.isKeyable) fun _ _ hs => hs.keyable
  obtain ⟨hlength, htoken⟩ := h.zipWith fun _ _ hs => ⟨hs.length, hs.token⟩
  exact ⟨fun l hl => hfit _ hl l rfl, hlength, htoken⟩

namespace KeyDecoder

/-! ### What no history changes -/

/-- The decoder reads the token, and passes over as many bytes as the border has. -/
structure Placed (border : Option String) (buffer : Bytes) (t : Traversal KeyDecoder) : Prop where
  decodes : t.direction = .decode
  border : (borderBytes border).length = t.store.borderLength
  within : Within buffer t

variable {border : Option String} {buffer : Bytes} {t u : Traversal KeyDecoder}

theorem placed_start (border : Option String) (buffer : Bytes) :
    Placed border buffer (start border buffer) :=
  ⟨rfl, rfl, within_start border buffer⟩

/-- Only the cursor moves, and it does not leave the token. -/
theorem Placed.advance (h : Placed border buffer t) (hmoves : Advance Fault t u) :
    Placed border buffer u := by
  have hwithin : Within buffer u := hmoves.stays_whole h.within
  obtain ⟨n, hu⟩ := hmoves.moved
  rw [hu] at hwithin ⊢
  exact ⟨h.decodes, h.border, hwithin⟩

theorem keeps_placed : Codec.Keeps (Placed border buffer) where
  ignores _ h _ := ⟨h.decodes, h.border, h.within⟩
  visit kind name v t h := h.advance ((advances_read kind name v).moves t)
  close t h := h.advance (advances_skipBorder.moves t)
  openRun := Act.keeps_pure ()
  closeRun := Act.keeps_pure ()
  rewind _ h := ⟨h.decodes, h.border, h.within⟩

theorem Placed.facing (h : Placed border buffer t) (ht : t.error = none) :
    Facing t.store t.store.cursor.rest t :=
  ⟨ht, h.decodes, rfl,
    Nat.le_of_eq (h.within.limit.trans (congrArg List.length h.within.buffer.symm)), rfl⟩

/-! ### Sessions -/

/-- A key decoder at the end of a history. -/
structure Session where
  border : Option String
  buffer : Bytes
  history : List Step
  inMemory : buffer.length ≤ maxLength

namespace Session

/-- The decoder. -/
def state (d : Session) : Traversal KeyDecoder :=
  (performAll d.history (start d.border d.buffer)).2.1

/-- The next run. -/
def read (d : Session) (r : Record) : Visited KeyDecoder Record :=
  run r d.state

/-- The place in the input where the decoder stands. -/
def offset (d : Session) : Nat :=
  d.state.store.cursor.offset

/-- The place where it stands after the next run. -/
def offsetAfter (d : Session) (r : Record) : Nat :=
  (d.read r).state.store.cursor.offset

/-- The bytes between the two. -/
def consumed (d : Session) (r : Record) : Bytes :=
  (d.buffer.drop d.offset).take (d.offsetAfter r - d.offset)

/-- What the bytes belong to that the key of the record has. -/
def marks (d : Session) (r : Record) : List KeyByte :=
  (d.read r).value.keyBytes (borderBytes d.border)

variable (d : Session) {r : Record}

theorem placed_state : Placed d.border d.buffer d.state :=
  performAll_keeps keeps_placed d.history (placed_start d.border d.buffer)

/-- **What is known of a run that succeeds**: it moves forward, and the stops of the record that it
gives spell the bytes that it consumes. -/
theorem spells_consumed (hr : r.isPlain) (hrun : (d.read r).result = .ok ()) :
    d.offset + (d.consumed r).length = d.offsetAfter r ∧
      Decoded (Stop.token (borderBytes d.border)) (Stop.KeyedFrom (borderBytes d.border)) r.stops
        (d.read r).value.stops (r.alike (d.read r).value) (d.read r).value.isPlain
        ((d.read r).value.everySequence fewEnough) (d.consumed r) := by
  have hbefore := d.placed_state
  have hafter := run_keeps keeps_placed r d.state hbefore
  have hlaw : Accepts (terms d.state.store False) (Stop.token (borderBytes d.border))
      (Stop.KeyedFrom (borderBytes d.border)) := accepts hbefore.border
  exact hlaw.run_consumes hr nofun rfl (fun _ => rfl) hbefore.facing hbefore.within hafter.within
    hrun

/-- The token of the record is what was consumed, but for the case of digits and for borders. -/
theorem token_read (hr : r.isPlain) (hrun : (d.read r).result = .ok ()) :
    (d.read r).value.isKeyable ∧ (d.marks r).length = (d.consumed r).length ∧
      (d.read r).value.token (borderBytes d.border) = rewritten (d.marks r) (d.consumed r) := by
  obtain ⟨-, hdecoded⟩ := d.spells_consumed hr hrun
  obtain ⟨hfit, hlength, htoken⟩ := hdecoded.spells.keyedFrom
  exact ⟨Record.isSerial_iff.mpr
    ⟨Record.isData_of_isPlain hdecoded.isPlain, hfit, hdecoded.fewEnough⟩, hlength, htoken⟩

theorem length_consumed_le : (d.consumed r).length ≤ maxLength := by
  have hmemory := d.inMemory
  rw [consumed, List.length_take, List.length_drop]
  omega

/-- **Writing a key undoes reading it.** Where a run of a plain record succeeds, the record that it
gives has a key for the same border. The key has as many bytes as the run consumed, and they are the
same byte by byte, but that digits are in lower case and that the border is in the place of what was
passed over for it. If the bytes were so before, the key is the same, and no other such bytes are
read as the record. -/
theorem key_undoes (hr : r.isPlain) (hrun : (d.read r).result = .ok ()) :
    let v := (d.read r).value
    d.offset ≤ d.offsetAfter r ∧ r.alike v ∧
      (d.marks r).length = (d.consumed r).length ∧
      (∃ key, (v.key d.border).result = .ok key ∧ key.length = d.offsetAfter r - d.offset ∧
        key = rewritten (d.marks r) (d.consumed r)) ∧
      (isTidy (d.marks r) (d.consumed r) → (v.key d.border).result = .ok (d.consumed r) ∧
        ∀ d' : Session, d'.border = d.border → (d'.read r).result = .ok () →
          isTidy (d'.marks r) (d'.consumed r) → (d'.read r).value = v →
            d'.consumed r = d.consumed r) := by
  intro v
  obtain ⟨hmoved, hdecoded⟩ := d.spells_consumed hr hrun
  obtain ⟨hkeyable, hlength, htoken⟩ := d.token_read hr hrun
  have hwhole : (rewritten (d.marks r) (d.consumed r)).length = (d.consumed r).length := by
    rw [rewritten, List.length_zipWith, hlength, Nat.min_self]
  have hkey : (v.key d.border).result = .ok (rewritten (d.marks r) (d.consumed r)) := by
    rw [← htoken]
    refine Record.result_key hkeyable ?_
    rw [htoken, hwhole]
    exact d.length_consumed_le
  refine ⟨by omega, hdecoded.isAlike, hlength, ⟨_, hkey, by omega, rfl⟩, ?_⟩
  intro htidy
  have hsame := rewritten_of_isTidy hlength htidy
  rw [hkey, hsame]
  refine ⟨rfl, ?_⟩
  intro d' hborder hrun' htidy' hvalue
  obtain ⟨-, hlength', htoken'⟩ := d'.token_read hr hrun'
  rw [← rewritten_of_isTidy hlength' htidy', ← htoken', hborder, hvalue, htoken, hsame]

/-- A key decoder that has read one byte, with the token of a number and of a sequence with one item
ahead. One of the digits can be of either case, and any byte can stand in the place of borders. -/
def specimen (digit gap : UInt8) : Session :=
  ⟨some "|", [48, 57, 124] ++ [48, 48, digit, 102, gap] ++
      [48, 48, 48, 48, 48, 48, 48, 49, gap, 48, 55, gap, gap],
    [.visit (.leaf "first" .u8 0)], Nat.le_of_ble_eq_true rfl⟩

/-- An upper-case digit and spaces are written in lower case and as the border. Without them, the
key is what was read. -/
theorem key_undoes_specimen :
    let r := Record.strict [.leaf "id" .u16 0, .sequence "items" [] (.strict [.leaf "k" .u8 0])]
    let key := fun d : Session => ((d.read r).value.key d.border).result
    (∃ bs, key (specimen 70 32) = .ok bs ∧
      bs = rewritten ((specimen 70 32).marks r) ((specimen 70 32).consumed r)) ∧
      key (specimen 102 124) = .ok ((specimen 102 124).consumed r) := by
  intro r key
  have hplain : r.isPlain := by decide
  obtain ⟨-, -, -, ⟨bs, hbs, -, hrewritten⟩, -⟩ := (specimen 70 32).key_undoes hplain rfl
  obtain ⟨-, -, -, -, htidy⟩ := (specimen 102 124).key_undoes hplain rfl
  obtain ⟨hsame, -⟩ := htidy rfl
  exact ⟨⟨bs, hbs, hrewritten⟩, hsame⟩

end Session

end KeyDecoder

end RecordCodec
