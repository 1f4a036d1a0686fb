import RecordCodec.Proofs.Binary.Digest
import RecordCodec.Proofs.Binary.Size
import RecordCodec.Proofs.Key.Encoding
import RecordCodec.Proofs.Separation
import RecordCodec.Proofs.Sequences

/-!
# Counts that wrap around

The count of a sequence has 32 bits, and so has the length of a block or a text. What does not fit
is treated differently. A length that does not fit is refused, in every codec that has a place for
it. A count that does not fit wraps around: the sequence is visited as if nothing were wrong, and
all its items follow a count that is too low by a multiple of 2³².

So a sequence that is visited without a failure has told the truth about its items just if there
are fewer of them than 2³².

## Main definitions

* `InTurn` — items visited one after another.
* `CountsTruly` — a sequence that is visited without failure has as many items as its count says.
* `CountsModulo` — what the count of a sequence says.
* `RefusesLength` — a leaf is refused for its length.

## Main results

* `countsTruly_iff` — when the count is true.
* `counts_modulo` — counts and lengths in the codecs that do not decode.
* `miscounted` — the first number of items that is not counted truly, in all of these codecs.
-/

namespace RecordCodec

variable {σ : Type}

/-! ### Items in turn -/

section

variable [Codec σ]

/-- The items are visited one after another, from the first state to the last, and none fails. -/
inductive InTurn : List Record → Traversal σ → Traversal σ → Prop
  | nil (t : Traversal σ) : InTurn [] t t
  | cons {r r' : Record} {rs : List Record} {t s u : Traversal σ} {log : List Event} :
    visitNested r.visit r t = ⟨.ok (), r', s, log⟩ → InTurn rs s u → InTurn (r :: rs) t u

/-- Items that are visited without failure are visited in turn, all of them. -/
theorem visitItems_inTurn {items : List Record} {t : Traversal σ}
    (h : (visitItems items t).result = .ok ()) : InTurn items t (visitItems items t).state := by
  induction items generalizing t with
  | nil => exact .nil t
  | cons r rs ih =>
    rw [visitItems] at h ⊢
    cases hfirst : (visitNested r.visit r t).result with
    | error e =>
      simp only [hfirst, reduceCtorEq] at h
    | ok u =>
      simp only [hfirst] at h ⊢
      have hitem : visitNested r.visit r t = ⟨.ok (), (visitNested r.visit r t).value,
          (visitNested r.visit r t).state, (visitNested r.visit r t).log⟩ := by rw [← hfirst]
      exact .cons hitem (ih h)

/-! ### Counts -/

/-- A sequence that is visited without failure has as many items as its count says, and they are
visited behind the count, one after another. -/
def CountsTruly (name : String) (items : List Record) (blank : Record) (t : Traversal σ) : Prop :=
  let done := (Field.sequence name items blank).visit t
  done.result = .ok () → ∃ n s log, visitCount name items t = ⟨.ok (), n, s, log⟩ ∧
    n.toNat = items.length ∧ InTurn items s done.state

variable [Codec.Observing σ] {name : String} {items : List Record} {blank : Record}
  {t : Traversal σ}

/-- Behind a count that was visited, a codec that does not decode goes on with the items. -/
theorem visit_sequence_of_items (ht : t.error = none) (hdir : t.direction ≠ .decode)
    (h : (visitCount name items t).result = .ok ()) :
    let count := visitCount name items t
    let rest := visitItems items count.state
    (Field.sequence name items blank).visit t =
      ⟨rest.result, .sequence name rest.value blank, rest.state, count.log ++ rest.log⟩ := by
  have hsettings := (visitLeaf_ok ht h).2
  rw [← hsettings.direction] at hdir
  rw [visitCount] at h ⊢
  rw [Field.visit]
  -- the direction behind the count is not that of a decoder, by `hdir`
  simp only [h]

/-- **The count of a sequence** that is visited without failure is what 32 bits hold of its number of
items, and all of the items follow. -/
theorem visitCount_of_ok (ht : t.error = none) (hdir : t.direction ≠ .decode)
    (h : ((Field.sequence name items blank).visit t).result = .ok ()) :
    ∃ s log, visitCount name items t = ⟨.ok (), UInt32.ofNat items.length, s, log⟩ ∧
      InTurn items s ((Field.sequence name items blank).visit t).state := by
  cases hcount : (visitCount name items t).result with
  | error e =>
    rw [visit_sequence_of_uncounted hcount] at h
    cases h
  | ok u =>
    have hkept : (visitCount name items t).value = UInt32.ofNat items.length := by
      rw [visitCount, visitLeaf_eq_perform]
      rfl
    rw [visit_sequence_of_items ht hdir hcount] at h ⊢
    refine ⟨(visitCount name items t).state, (visitCount name items t).log, ?_,
      visitItems_inTurn h⟩
    rw [← hkept, ← hcount]

/-- **A count is true** just if it fits 32 bits, or if the visit fails anyway. -/
theorem countsTruly_iff (ht : t.error = none) (hdir : t.direction ≠ .decode) :
    CountsTruly name items blank t ↔ items.length < UInt32.size ∨
      ∃ e, ((Field.sequence name items blank).visit t).result = .error e := by
  constructor
  · intro h
    cases hdone : ((Field.sequence name items blank).visit t).result with
    | error e => exact .inr ⟨e, rfl⟩
    | ok u =>
      obtain ⟨n, -, -, -, hn, -⟩ := h hdone
      rw [← hn]
      exact .inl n.toNat_lt
  · rintro (hless | ⟨e, he⟩) hdone
    · obtain ⟨s, log, hcount, hitems⟩ := visitCount_of_ok ht hdir hdone
      exact ⟨_, s, log, hcount, UInt32.toNat_ofNat_of_lt' hless, hitems⟩
    · cases he.symm.trans hdone

/-- What the count of a sequence says. -/
structure CountsModulo (name : String) (items : List Record) (blank : Record)
    (t : Traversal σ) : Prop where
  /-- It is the number of items that follow, up to a multiple of 2³². -/
  wraps : let done := (Field.sequence name items blank).visit t
    done.result = .ok () → ∃ n s log, visitCount name items t = ⟨.ok (), n, s, log⟩ ∧
      n.toNat = items.length % UInt32.size ∧ InTurn items s done.state
  /-- It is true where nothing is lost. -/
  truly : CountsTruly name items blank t ↔ items.length < UInt32.size ∨
    ∃ e, ((Field.sequence name items blank).visit t).result = .error e

theorem countsModulo (name : String) (items : List Record) (blank : Record) (ht : t.error = none)
    (hdir : t.direction ≠ .decode) : CountsModulo name items blank t where
  wraps hdone := by
    obtain ⟨s, log, hcount, hitems⟩ := visitCount_of_ok ht hdir hdone
    exact ⟨_, s, log, hcount, UInt32.toNat_ofNat, hitems⟩
  truly := countsTruly_iff ht hdir

end

/-! ### Lengths -/

/-- The number of bytes of a block or a text. -/
def Kind.length : (k : Kind) → k.Value → Nat
  | .block _, b => b.length
  | .text, s => (utf8 s).length
  | _, _ => 0

/-- A traversal refuses the leaf for its length. The error is stored, and that is all. -/
def RefusesLength [Codec σ] (l : Leaf) (t : Traversal σ) : Prop :=
  let e := Error.lengthOverflow l.name (l.kind.length l.value)
  ∃ log, (Field.leaf l.name l.kind l.value).visit t =
    ⟨.error e, .leaf l.name l.kind l.value, { t with error := some e }, log⟩

namespace Act

variable {α β : Type} {e : Error}

/-- From a state without an error, the act fails with `e`, and leaves everything else alone. -/
def Rejects (act : Act σ α) (e : Error) : Prop :=
  ∀ t, t.error = none → ∃ log, act t = ⟨.error e, { t with error := some e }, log⟩

theorem Rejects.bind {act : Act σ α} (h : act.Rejects e) (next : α → Act σ β) :
    (act >>= next).Rejects e := by
  intro t ht
  obtain ⟨log, hact⟩ := h t ht
  refine ⟨log, ?_⟩
  rw [bind_of_error (by rw [hact]), hact]

theorem Rejects.after_report {act : Act σ α} (h : act.Rejects e) (event : Event) :
    (report event >>= fun _ => act).Rejects e := by
  intro t ht
  obtain ⟨log, hact⟩ := h t ht
  refine ⟨event :: log, ?_⟩
  simp only [bind_apply, report, hact, List.singleton_append]

/-- **A length that does not fit** its field is rejected, whatever would come behind the field. -/
theorem rejects_lengthField {name : String} {n : Nat} (h : ¬n < UInt32.size)
    (next : UInt32 → Act σ α) :
    (do check; let w ← require (lengthField name n); next w).Rejects (.lengthOverflow name n) := by
  intro t ht
  have hcheck : t.check = .ok () := Traversal.check_eq_ok_iff.mpr ht
  have hfield : lengthField name n = .error (.lengthOverflow name n) := if_neg h
  refine ⟨[.failed t.direction (.lengthOverflow name n)], ?_⟩
  simp only [bind_apply, check, hcheck, hfield, require, fail, ht, List.nil_append]

end Act

/-- A leaf is refused where its visit is rejected. -/
theorem refusesLength_of_rejects [Codec σ] {l : Leaf} {t : Traversal σ}
    (h : (Codec.visit (σ := σ) l.kind l.name l.value).Rejects
      (.lengthOverflow l.name (l.kind.length l.value))) (ht : t.error = none) :
    RefusesLength l t := by
  obtain ⟨log, hvisit⟩ := h t ht
  refine ⟨log, ?_⟩
  rw [Field.visit, visitLeaf, hvisit]
  rfl

section

variable {name : String}

theorem not_isMeasurable_block {flags : Mask} {b : ByteBlock}
    (h : ¬(⟨name, .block flags, b⟩ : Leaf).isMeasurable) :
    ¬meets flags BlockFlags.terminated ∧ ¬b.length < UInt32.size := by
  simpa only [Leaf.isMeasurable, Kind.isMeasurable, Bool.or_eq_true, decide_eq_true_iff,
    not_or] using h

theorem not_isMeasurable_text {s : String} (h : ¬(⟨name, .text, s⟩ : Leaf).isMeasurable) :
    ¬(utf8 s).length < UInt32.size := by
  simpa only [Leaf.isMeasurable, Kind.isMeasurable, decide_eq_true_iff] using h

end

variable {l : Leaf}

theorem Encoder.refusesLength (h : ¬l.isMeasurable) {t : Traversal Encoder}
    (ht : t.error = none) : RefusesLength l t := by
  refine refusesLength_of_rejects ?_ ht
  obtain ⟨name, kind, v⟩ := l
  rw [visit_eq_write]
  cases kind with
  | u32 | u16 | u8 | bool | fixed => exact absurd rfl h
  | block flags =>
    obtain ⟨hterm, hlong⟩ := not_isMeasurable_block h
    simp only [write, if_neg hterm]
    exact ((Act.rejects_lengthField hlong _).bind _).bind _
  | text => exact ((Act.rejects_lengthField (not_isMeasurable_text h) _).bind _).bind _

theorem Sizer.refusesLength (h : ¬l.isMeasurable) {t : Traversal Sizer}
    (ht : t.error = none) : RefusesLength l t := by
  refine refusesLength_of_rejects ?_ ht
  obtain ⟨name, kind, v⟩ := l
  rw [visit_eq_measure]
  cases kind with
  | u32 | u16 | u8 | bool | fixed => exact absurd rfl h
  | block flags =>
    obtain ⟨hterm, hlong⟩ := not_isMeasurable_block h
    simp only [measure, if_neg hterm]
    exact ((Act.rejects_lengthField hlong _).after_report _).bind _
  | text => exact (Act.rejects_lengthField (not_isMeasurable_text h) _).bind _

theorem Summer.refusesLength (h : ¬l.isMeasurable) {t : Traversal Summer}
    (ht : t.error = none) : RefusesLength l t := by
  refine refusesLength_of_rejects ?_ ht
  obtain ⟨name, kind, v⟩ := l
  rw [visit_eq_absorb]
  cases kind with
  | u32 | u16 | u8 | bool | fixed => exact absurd rfl h
  | block flags =>
    obtain ⟨hterm, hlong⟩ := not_isMeasurable_block h
    simp only [absorb, if_neg hterm]
    exact ((Act.rejects_lengthField hlong _).bind _).bind _
  | text => exact (Act.rejects_lengthField (not_isMeasurable_text h) _).bind _

/-- In a key a block has a length field whatever its flags say. -/
theorem KeyEncoder.refusesLength (h : ¬l.isKeyable) {t : Traversal KeyEncoder}
    (ht : t.error = none) : RefusesLength l t := by
  refine refusesLength_of_rejects ?_ ht
  obtain ⟨name, kind, v⟩ := l
  rw [visit_eq_write]
  cases kind with
  | u32 | u16 | u8 | bool | fixed => exact absurd rfl h
  | block flags =>
    have hlong : ¬v.length < UInt32.size := by
      simpa only [Leaf.isKeyable, Kind.isKeyable, decide_eq_true_iff] using h
    exact ((Act.rejects_lengthField hlong _).bind _).bind _
  | text =>
    have hlong : ¬(utf8 v).length < UInt32.size := by
      simpa only [Leaf.isKeyable, Kind.isKeyable, decide_eq_true_iff] using h
    exact (Act.rejects_lengthField hlong _).bind _

/-! ### Many items -/

/-- A field of data that is encodable apart from its counts is visited where there is room. -/
theorem Encoder.visit_field {f : Field} (hf : f.isData) (hfit : LeavesFit Leaf.isEncodable f.stops)
    {t : Traversal Encoder} (ht : t.error = none) (hdir : t.direction ≠ .decode)
    (hroom : t.store.sink.reserve (f.stops.flatMap Stop.layout).length = .ok ()) :
    (f.visit t).result = .ok () := by
  rw [Field.visit_eq_walk hf ht hdir, Visited.ofAct,
    writes_walk hfit t t.store.sink ht rfl hroom]

theorem KeyEncoder.visit_field {f : Field} (hf : f.isData) (hfit : LeavesFit Leaf.isKeyable f.stops)
    {t : Traversal KeyEncoder} (ht : t.error = none) (hdir : t.direction ≠ .decode)
    (hroom : t.store.sink.reserve (f.stops.flatMap (Stop.token t.store.border)).length = .ok ()) :
    (f.visit t).result = .ok () := by
  rw [Field.visit_eq_walk hf ht hdir, Visited.ofAct,
    writes_walk (e := t.store) hfit t t.store.sink ht rfl hroom]

theorem Dump.visit_field {f : Field} (hf : f.isData) {t : Traversal Dump} (ht : t.error = none)
    (hdir : t.direction ≠ .decode) : (f.visit t).result = .ok () := by
  rw [Field.visit_eq_walk hf ht hdir, Visited.ofAct, walk_eq f.stops ht]

/-- A sequence of copies of one item. -/
def Field.copies (name : String) (n : Nat) (r : Record) : Field :=
  .sequence name (List.replicate n r) r

section

variable (name : String) (n : Nat) {r : Record}

theorem itemsData_replicate (h : r.isData) : itemsData (List.replicate n r) := by
  induction n with
  | zero => rfl
  | succ n ih => rw [List.replicate_succ, itemsData, h, ih, Bool.and_self]

theorem leavesFit_replicate {fit : Leaf → Bool} (h : LeavesFit fit r.stops) :
    LeavesFit fit (itemStops (List.replicate n r)) := by
  induction n with
  | zero => exact .nil
  | succ n ih =>
    rw [List.replicate_succ, itemStops]
    exact (h.append LeavesFit.nil.close).append ih

/-- Copies of an item have the bytes of one, as many times. -/
theorem length_replicate_stops (r : Record) (token : Stop → Bytes) :
    ((itemStops (List.replicate n r)).flatMap token).length =
      n * ((r.stops ++ [Stop.close]).flatMap token).length := by
  induction n with
  | zero =>
    rw [Nat.zero_mul]
    rfl
  | succ n ih =>
    rw [List.replicate_succ, itemStops, List.flatMap_append, List.length_append, ih, Nat.succ_mul,
      Nat.add_comm]

theorem isData_copies (h : r.isData) : (Field.copies name n r).isData :=
  itemsData_replicate n h

theorem leavesFit_copies {fit : Leaf → Bool} (hcount : ∀ v, fit ⟨name, .u32, v⟩)
    (h : LeavesFit fit r.stops) : LeavesFit fit (Field.copies name n r).stops := by
  refine .cons (fun l hl => ?_) (leavesFit_replicate n h)
  obtain rfl := Stop.leaf.inj hl
  exact hcount _

theorem length_copies {token : Stop → Bytes} {count item : Nat}
    (hcount : ∀ v, (token (.leaf ⟨name, .u32, v⟩)).length = count)
    (hitem : ((r.stops ++ [Stop.close]).flatMap token).length = item) :
    ((Field.copies name n r).stops.flatMap token).length = count + n * item := by
  rw [Field.copies, Field.stops, List.flatMap_cons, List.length_append, hcount,
    length_replicate_stops, hitem]

end

/-! ### True and false counts -/

/-- **Counts wrap around, and lengths do not.** A sequence that is visited without failure shows a
count that is the number of its items modulo 2³², and all items behind it. So the count is true just
if the number fits, or if the visit fails anyway. A block or text whose length does not fit its
length field is refused. -/
theorem counts_modulo (name : String) (items : List Record) (blank : Record) (l : Leaf) :
    ((∀ t : Traversal Encoder, t.error = none → t.direction ≠ .decode →
        CountsModulo name items blank t) ∧
      (∀ t : Traversal Sizer, t.error = none → t.direction ≠ .decode →
        CountsModulo name items blank t) ∧
      (∀ t : Traversal Summer, t.error = none → t.direction ≠ .decode →
        CountsModulo name items blank t) ∧
      (∀ t : Traversal KeyEncoder, t.error = none → t.direction ≠ .decode →
        CountsModulo name items blank t) ∧
      ∀ t : Traversal Dump, t.error = none → t.direction ≠ .decode →
        CountsModulo name items blank t) ∧
    (¬l.isMeasurable →
      (∀ t : Traversal Encoder, t.error = none → RefusesLength l t) ∧
      (∀ t : Traversal Sizer, t.error = none → RefusesLength l t) ∧
      ∀ t : Traversal Summer, t.error = none → RefusesLength l t) ∧
    (¬l.isKeyable → ∀ t : Traversal KeyEncoder, t.error = none → RefusesLength l t) := by
  refine ⟨⟨?_, ?_, ?_, ?_, ?_⟩, fun hlong => ⟨?_, ?_, ?_⟩, fun hlong t => ?_⟩
  · exact fun _ => countsModulo name items blank
  · exact fun _ => countsModulo name items blank
  · exact fun _ => countsModulo name items blank
  · exact fun _ => countsModulo name items blank
  · exact fun _ => countsModulo name items blank
  · exact fun _ => Encoder.refusesLength hlong
  · exact fun _ => Sizer.refusesLength hlong
  · exact fun _ => Summer.refusesLength hlong
  · exact KeyEncoder.refusesLength hlong

/-- Two items, counted by a dump. -/
theorem counts_modulo_two :
    let number (n : UInt8) := Record.strict [.leaf "k" .u8 n]
    let t := Dump.start .network 0
    ((Field.sequence "items" [number 1, number 2] (number 0)).visit t).result = .ok () ∧
      CountsTruly "items" [number 1, number 2] (number 0) t := by
  intro number t
  have hinspects : t.direction ≠ .decode := by
    show Direction.inspect ≠ .decode
    decide
  obtain ⟨⟨-, -, -, -, hdump⟩, -⟩ :=
    counts_modulo "items" [number 1, number 2] (number 0) ⟨"k", .u8, 0⟩
  exact ⟨Dump.visit_field rfl rfl hinspects,
    (hdump t rfl hinspects).truly.mpr (.inl (by decide))⟩

/-- A count that does not fit is not the number of items. -/
theorem not_countsTruly [Codec σ] {name : String} {n : Nat} {r : Record} {t : Traversal σ}
    (hlong : UInt32.size ≤ n) (hdone : ((Field.copies name n r).visit t).result = .ok ()) :
    ¬CountsTruly name (List.replicate n r) r t := by
  intro h
  obtain ⟨count, -, -, -, hcount, -⟩ := h hdone
  have hless := count.toNat_lt
  rw [hcount, List.length_replicate] at hless
  exact absurd hless (Nat.not_lt.mpr hlong)

/-- As many items as there are 32-bit numbers, of one byte each. Every codec that does not decode
visits them all, behind a count of zero. -/
theorem miscounted :
    let item := Record.strict [.leaf "k" .u8 0]
    let items := List.replicate UInt32.size item
    ¬CountsTruly "items" items item (Encoder.start .unknown 0 (Sink.empty none)) ∧
      ¬CountsTruly "items" items item (Sizer.start .unknown 0) ∧
      ¬CountsTruly "items" items item (Summer.start .unknown) ∧
      ¬CountsTruly "items" items item (KeyEncoder.start none (Sink.empty none)) ∧
      ¬CountsTruly "items" items item (Dump.start .unknown 0) := by
  intro item items
  have hlong : UInt32.size ≤ UInt32.size := Nat.le_refl _
  have hdata : (Field.copies "items" UInt32.size item).isData :=
    isData_copies "items" UInt32.size rfl
  have hfit : ∀ fit : Leaf → Bool, (∀ v, fit ⟨"items", .u32, v⟩) → fit ⟨"k", .u8, 0⟩ →
      LeavesFit fit (Field.copies "items" UInt32.size item).stops := by
    intro fit hcount hitem
    refine leavesFit_copies "items" UInt32.size hcount (.cons (fun l hl => ?_) .nil)
    obtain rfl := Stop.leaf.inj hl
    exact hitem
  have hmeasurable : LeavesFit Leaf.isMeasurable (Field.copies "items" UInt32.size item).stops :=
    hfit Leaf.isMeasurable (fun _ => rfl) rfl
  have hencodes : Direction.encode ≠ .decode := by decide
  have hinspects : Direction.inspect ≠ .decode := by decide
  refine ⟨not_countsTruly hlong ?_, not_countsTruly hlong ?_, not_countsTruly hlong ?_,
    not_countsTruly hlong ?_, not_countsTruly hlong ?_⟩
  · refine Encoder.visit_field hdata (hfit _ (fun _ => rfl) rfl) rfl hencodes ?_
    refine Sink.reserve_empty_iff.mpr ?_
    rw [length_copies "items" UInt32.size (fun _ => length_bigEndian 4 _) rfl]
    decide
  · obtain ⟨log, hvisit⟩ :=
      Measures.visit_field hdata hmeasurable (t := Sizer.start .unknown 0) rfl hinspects
    rw [hvisit]
  · obtain ⟨log, hvisit⟩ :=
      Measures.visit_field hdata hmeasurable (t := Summer.start .unknown) rfl hinspects
    rw [hvisit]
  · refine KeyEncoder.visit_field hdata (hfit _ (fun _ => rfl) rfl) rfl hencodes ?_
    refine Sink.reserve_empty_iff.mpr ?_
    have hcount : ∀ v, (Stop.token [] (.leaf ⟨"items", .u32, v⟩)).length = 8 := by
      intro v
      rw [Stop.token, Kind.token, List.append_nil, Hex.length_encode, length_bigEndian]
    show ((Field.copies "items" UInt32.size item).stops.flatMap (Stop.token [])).length ≤ maxLength
    rw [length_copies "items" UInt32.size hcount rfl]
    decide
  · exact Dump.visit_field hdata rfl hinspects

end RecordCodec
