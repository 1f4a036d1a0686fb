import RecordCodec.Proofs.Bounds
import RecordCodec.Proofs.Consumption
import RecordCodec.Proofs.Delivery
import RecordCodec.Proofs.History

/-!
# Records that a decoder accepts

`Delivery` starts from bytes that were written, and says what a decoder makes of them. Here it is
the other way round: the bytes are arbitrary, a visit has succeeded, and the question is what they
must have been. The answer has the shape of an itinerary. The decoded record has stops, and the
consumed bytes are a piece for each of them, one behind the other (`Spells`).

A visit that succeeds is an act that gives the visited value (`Act.ofVisit`). What a failed visit
leaves of a value is lost in this, but here only successes count; in return, the laws of acts in a
row serve for records as they do for leaves.

## Main definitions

* `Spells` — bytes that consist of a piece for each entry of a list.
* `Record.everyBlank` — a condition on the blank items of all sequences, however deep.
* `Record.everyKind` — a condition on the kinds of leaves in records of a form.
* `Accepts` — a decoder's account of leaves and closes.
* `Decoded` — what is known of a part that was decoded.

## Main results

* `Accepts.exact_record` — what is decoded as a record is spelled by its stops.
* `Accepts.run_consumes` — what a run consumes is.
-/

namespace RecordCodec

/-! ### Visits as acts -/

namespace Act

variable {σ α β : Type}

/-- A visit as an act, which gives the visited value. -/
def ofVisit (visit : Traversal σ → Visited σ α) : Act σ α := fun t =>
  ⟨(visit t).result.map fun _ => (visit t).value, (visit t).state, (visit t).log⟩

theorem result_ofVisit_eq_ok {visit : Traversal σ → Visited σ α} {t : Traversal σ} {a : α} :
    (ofVisit visit t).result = .ok a ↔ (visit t).result = .ok () ∧ (visit t).value = a := by
  rw [ofVisit]
  cases (visit t).result with
  | error e => exact iff_of_false nofun fun h => absurd h.1 nofun
  | ok u =>
    show Except.ok (visit t).value = Except.ok a ↔ _
    rw [Except.ok.injEq]
    exact ⟨fun h => ⟨rfl, h⟩, fun h => h.2⟩

theorem result_ofVisit_eq_error {visit : Traversal σ → Visited σ α} {t : Traversal σ} {e : Error} :
    (ofVisit visit t).result = .error e ↔ (visit t).result = .error e := by
  rw [ofVisit]
  cases (visit t).result with
  | error e' =>
    show Except.error e' = Except.error e ↔ _
    rw [Except.error.injEq, Except.error.injEq]
  | ok u => exact iff_of_false nofun nofun

/-- An act that succeeded was a visit that did. -/
theorem eq_of_ofVisit {visit : Traversal σ → Visited σ α} {t t' : Traversal σ} {a : α}
    {log : List Event} (h : ofVisit visit t = ⟨.ok a, t', log⟩) :
    visit t = ⟨.ok (), a, t', log⟩ := by
  obtain ⟨hresult, hvalue⟩ := result_ofVisit_eq_ok.mp (congrArg Outcome.result h)
  have hstate : (visit t).state = t' := congrArg Outcome.state h
  have hlog : (visit t).log = log := congrArg Outcome.log h
  rw [← hvalue, ← hstate, ← hlog, ← hresult]

theorem ofVisit_map (f : α → β) (visit : Traversal σ → Visited σ α) :
    ofVisit (fun t => (visit t).map f) = ofVisit visit >>= fun a => pure (f a) := by
  funext t
  simp only [ofVisit, Visited.map, bind_apply]
  cases (visit t).result <;> simp [Except.map]

theorem ofVisit_copies_succ (item : Traversal σ → Visited σ Record) (n : Nat) :
    ofVisit (visitCopies item (n + 1)) =
      ofVisit item >>= fun r => ofVisit (visitCopies item n) >>= fun rs => pure (r :: rs) := by
  funext t
  simp only [ofVisit, visitCopies, bind_apply]
  cases (item t).result with
  | error e => rfl
  | ok u =>
    simp only [Except.map]
    cases (visitCopies item n (item t).state).result <;> simp

variable [Codec σ]

theorem ofVisit_leaf (kind : Kind) (name : String) (old : kind.Value) :
    ofVisit (visitLeaf (σ := σ) kind name old) =
      Codec.visit kind name old >>= fun v => Codec.close >>= fun _ => pure v := by
  funext t
  simp only [ofVisit, visitLeaf, bind_apply]
  cases (Codec.visit kind name old t).result with
  | error e => rfl
  | ok v =>
    simp only [Visited.followedBy]
    cases ((Codec.close : Act σ Unit) (Codec.visit kind name old t).state).result <;>
      simp [Except.map]

theorem ofVisit_signed (w : Signed) (name : String) (old : w.Value) :
    ofVisit (visitSigned (σ := σ) w name old) =
      ofVisit (visitLeaf w.carrier name (w.toCarrier old)) >>= fun u => pure (w.ofCarrier u) := by
  funext t
  simp only [ofVisit, visitSigned, bind_apply]
  cases (visitLeaf w.carrier name (w.toCarrier old) t).result <;> simp [Except.map]

theorem ofVisit_nested (fields : Traversal σ → Visited σ Record) (r : Record) :
    ofVisit (visitNested fields r) =
      check >>= fun _ => ofVisit fields >>= fun v => Codec.close >>= fun _ => pure v := by
  funext t
  simp only [ofVisit, visitNested, bind_apply, check, Traversal.check]
  cases t.error with
  | some e => rfl
  | none =>
    simp only [Visited.followedBy]
    cases hfields : (fields t).result with
    | error e => simp [hfields, Except.map]
    | ok u =>
      simp only [Except.map]
      cases ((Codec.close : Act σ Unit) (fields t).state).result <;> simp

theorem ofVisit_fields_cons (f : Field) (fs : List Field) :
    ofVisit (visitFields (σ := σ) (f :: fs)) =
      ofVisit f.visit >>= fun g => ofVisit (visitFields fs) >>= fun gs => pure (g :: gs) := by
  funext t
  simp only [ofVisit, visitFields, bind_apply]
  cases (f.visit t).result with
  | error e => rfl
  | ok u =>
    simp only [Except.map]
    cases (visitFields fs (f.visit t).state).result <;> simp

/-- A sequence is its count and then its items, where the count leaves the traversal decoding. -/
theorem ofVisit_sequence {name : String} {items : List Record} {blank : Record}
    {t : Traversal σ}
    (ht : ∀ u, (visitLeaf .u32 name (UInt32.ofNat items.length) t).result = .ok u →
      (visitLeaf .u32 name (UInt32.ofNat items.length) t).state.direction = .decode) :
    ofVisit (Field.sequence name items blank).visit t =
      (ofVisit (visitLeaf .u32 name (UInt32.ofNat items.length)) >>= fun count =>
        ofVisit (decodeItems (visitNested blank.visit blank) count.toNat) >>= fun rs =>
          pure (.sequence name rs blank)) t := by
  rw [ofVisit, Field.visit]
  simp only [bind_apply, ofVisit]
  cases hcount : (visitLeaf .u32 name (UInt32.ofNat items.length) t).result with
  | error e => rfl
  | ok u =>
    simp only [ht u hcount, Except.map]
    cases (decodeItems (visitNested blank.visit blank)
      (visitLeaf .u32 name (UInt32.ofNat items.length) t).value.toNat
      (visitLeaf .u32 name (UInt32.ofNat items.length) t).state).result <;> simp

end Act

/-! ### Spelling -/

/-- The bytes are a piece for each entry, one behind the other. -/
def Spells {α : Type} (spell : α → Bytes → Prop) : List α → Bytes → Prop
  | [], data => data = []
  | a :: as, data => ∃ d d', data = d ++ d' ∧ spell a d ∧ Spells spell as d'

namespace Spells

variable {α : Type} {spell : α → Bytes → Prop} {as as' : List α} {data data' : Bytes}

theorem singleton {a : α} (h : spell a data) : Spells spell [a] data :=
  ⟨data, [], (List.append_nil data).symm, h, rfl⟩

theorem append (h : Spells spell as data) (h' : Spells spell as' data') :
    Spells spell (as ++ as') (data ++ data') := by
  induction as generalizing data with
  | nil =>
    obtain rfl := h
    exact h'
  | cons a as ih =>
    obtain ⟨d, d', rfl, ha, has⟩ := h
    exact ⟨d, d' ++ data', List.append_assoc d d' data', ha, ih has⟩

/-- What holds of all that can be spelled holds of each entry. -/
theorem forall_mem {P : α → Prop} (h : Spells spell as data) (hP : ∀ a d, spell a d → P a) :
    ∀ a ∈ as, P a := by
  induction as generalizing data with
  | nil => nofun
  | cons a as ih =>
    obtain ⟨d, d', -, ha, has⟩ := h
    exact List.forall_mem_cons.mpr ⟨hP a d ha, ih has⟩

/-- Where each entry has its piece for a token, byte by byte but for a change that depends on a
mark, all entries have the bytes for their tokens in this sense. -/
theorem zipWith {β : Type} {token : α → Bytes} {marks : α → List β} {f : β → UInt8 → UInt8}
    (h : Spells spell as data) (hpiece : ∀ a d, spell a d →
      (marks a).length = d.length ∧ token a = List.zipWith f (marks a) d) :
    (as.flatMap marks).length = data.length ∧
      as.flatMap token = List.zipWith f (as.flatMap marks) data := by
  induction as generalizing data with
  | nil =>
    obtain rfl := h
    exact ⟨rfl, rfl⟩
  | cons a as ih =>
    obtain ⟨d, d', rfl, ha, has⟩ := h
    obtain ⟨hlength, htoken⟩ := hpiece a d ha
    obtain ⟨hlengths, htokens⟩ := ih has
    rw [List.flatMap_cons, List.flatMap_cons, List.length_append, List.length_append,
      List.zipWith_append hlength, hlength, hlengths, htoken, htokens]
    exact ⟨rfl, rfl⟩

/-- There are no more pieces than bytes, if none of the pieces is empty. -/
theorem length_le (h : Spells spell as data) (hsome : ∀ a d, spell a d → d ≠ []) :
    as.length ≤ data.length := by
  induction as generalizing data with
  | nil => exact Nat.zero_le _
  | cons a as ih =>
    obtain ⟨d, d', rfl, ha, has⟩ := h
    have hpos := List.length_pos_iff.mpr (hsome a d ha)
    have hrest := ih has
    rw [List.length_append, List.length_cons]
    omega

end Spells

/-! ### Blank items -/

mutual

/-- The blank item of every sequence in the field satisfies a condition. -/
def Field.everyBlank (p : Record → Bool) : Field → Bool
  | .nested _ body | .guarded _ body => body.everyBlank p
  | .sequence _ _ blank => p blank && blank.everyBlank p
  | .leaf _ _ _ | .signed _ _ _ | .failing _ | .raising _ | .recovering _ | .watching _ => true

/-- The blank item of every sequence in the record satisfies a condition. -/
def Record.everyBlank (p : Record → Bool) : Record → Bool
  | .strict fields | .lenient fields _ => everyBlankOfFields p fields

/-- The blank item of every sequence in the fields satisfies a condition. -/
def everyBlankOfFields (p : Record → Bool) : List Field → Bool
  | [] => true
  | f :: fs => f.everyBlank p && everyBlankOfFields p fs

end

/-- An item of the form takes a byte of the input, in a form where stops have these tokens. -/
def takesByte (token : Stop → Bytes) (item : Record) : Bool :=
  substantial token [item]

theorem takesByte_iff {token : Stop → Bytes} {item : Record} :
    takesByte token item ↔ (item.stops ++ [Stop.close]).flatMap token ≠ [] := by
  rw [takesByte, substantial, List.all_cons, List.all_nil, Bool.and_true, Bool.not_eq_true',
    List.isEmpty_eq_false_iff]

/-! ### Kinds -/

mutual

/-- The kinds of all leaves that the field can have satisfy a condition. -/
def Field.everyKind (p : Kind → Bool) : Field → Bool
  | .leaf _ kind _ => p kind
  | .signed _ width _ => p width.carrier
  | .nested _ body | .guarded _ body => body.everyKind p
  | .sequence _ _ blank => p .u32 && blank.everyKind p
  | .failing _ | .raising _ | .recovering _ | .watching _ => true

/-- The kinds of all leaves that a record of the form can have satisfy a condition. -/
def Record.everyKind (p : Kind → Bool) : Record → Bool
  | .strict fields | .lenient fields _ => everyKindOfFields p fields

/-- The kinds of all leaves that the fields can have satisfy a condition. -/
def everyKindOfFields (p : Kind → Bool) : List Field → Bool
  | [] => true
  | f :: fs => f.everyKind p && everyKindOfFields p fs

end

mutual

theorem Field.kinds_of_alike {p : Kind → Bool} : ∀ {f g : Field}, f.alike g → g.isPlain →
    f.everyKind p → LeavesFit (fun l => p l.kind) g.stops
  | .leaf name kind v, .leaf name' kind' v', halike, _, hp => by
    simp only [Field.alike, Bool.and_eq_true, beq_iff_eq] at halike
    obtain ⟨⟨-, rfl⟩, -⟩ := halike
    refine .cons ?_ .nil
    rintro l hl
    obtain rfl := Stop.leaf.inj hl
    exact hp
  | .signed name w v, .signed name' w' v', halike, _, hp => by
    simp only [Field.alike, Bool.and_eq_true, beq_iff_eq] at halike
    obtain ⟨-, rfl⟩ := halike
    refine .cons ?_ .nil
    rintro l hl
    obtain rfl := Stop.leaf.inj hl
    exact hp
  | .nested _ _, .nested _ _, halike, hplain, hp => by
    rw [Field.alike, Bool.and_eq_true] at halike
    exact (Record.kinds_of_alike halike.2 hplain hp).append (.close .nil)
  | .sequence _ _ blank, .sequence name items blank', halike, hplain, hp => by
    rw [Field.alike, Bool.and_eq_true] at halike
    rw [Field.isPlain, Bool.and_eq_true] at hplain
    rw [Field.everyKind, Bool.and_eq_true] at hp
    refine .cons ?_ (kinds_of_items halike.2 hplain.2 hp.2)
    rintro l hl
    obtain rfl := Stop.leaf.inj hl
    exact hp.1

/-- **A record of the form** has no leaves of other kinds. -/
theorem Record.kinds_of_alike {p : Kind → Bool} : ∀ {r s : Record}, r.alike s → s.isPlain →
    r.everyKind p → LeavesFit (fun l => p l.kind) s.stops
  | .strict _, .strict _, halike, hplain, hp => kinds_of_fieldsAlike halike hplain hp

theorem kinds_of_fieldsAlike {p : Kind → Bool} : ∀ {fs gs : List Field}, fieldsAlike fs gs →
    fieldsPlain gs → everyKindOfFields p fs → LeavesFit (fun l => p l.kind) (fieldStops gs)
  | [], [], _, _, _ => .nil
  | f :: fs, g :: gs, halike, hplain, hp => by
    rw [fieldsAlike, Bool.and_eq_true] at halike
    rw [fieldsPlain, Bool.and_eq_true] at hplain
    rw [everyKindOfFields, Bool.and_eq_true] at hp
    exact (Field.kinds_of_alike halike.1 hplain.1 hp.1).append
      (kinds_of_fieldsAlike halike.2 hplain.2 hp.2)

theorem kinds_of_items {p : Kind → Bool} : ∀ {rs : List Record} {item blank : Record},
    item.alike blank → itemsPlain blank rs → item.everyKind p →
    LeavesFit (fun l => p l.kind) (itemStops rs)
  | [], _, _, _, _, _ => .nil
  | r :: rs, item, blank, halike, hplain, hp => by
    rw [itemsPlain, Bool.and_eq_true, Bool.and_eq_true] at hplain
    have hfirst := Record.kinds_of_alike (Record.alike_trans halike hplain.1.2) hplain.1.1 hp
    exact (hfirst.append (.close .nil)).append (kinds_of_items halike hplain.2 hp)

end

/-! ### What is known of decoded parts -/

/-- What is known of a part that was decoded in the place of another: it has the form of that one,
is plain, has counts that fit their length fields, and its stops spell the bytes. -/
structure Decoded (token : Stop → Bytes) (spell : Stop → Bytes → Prop) (old new : List Stop)
    (alike plain few : Bool) (bytes : Bytes) : Prop where
  isAlike : alike
  isPlain : plain
  fewEnough : few
  spells : Spells spell new bytes
  /-- Where a token of the old stops takes bytes, so do the new ones. -/
  weight : old.flatMap token ≠ [] → bytes ≠ []

namespace Decoded

variable {token : Stop → Bytes} {spell : Stop → Bytes → Prop} {old old' new new' : List Stop}
  {alike alike' plain plain' few few' : Bool} {bytes bytes' : Bytes}

theorem nil : Decoded token spell [] [] true true true [] :=
  ⟨rfl, rfl, rfl, rfl, fun h => absurd rfl h⟩

theorem singleton {s s' : Stop} (halike : alike) (h : spell s' bytes)
    (hweight : token s ≠ [] → bytes ≠ []) :
    Decoded token spell [s] [s'] alike true true bytes := by
  refine ⟨halike, rfl, rfl, .singleton h, ?_⟩
  rwa [List.flatMap_cons, List.flatMap_nil, List.append_nil]

/-- **A part and the parts behind it.** -/
theorem append (h : Decoded token spell old new alike plain few bytes)
    (h' : Decoded token spell old' new' alike' plain' few' bytes') :
    Decoded token spell (old ++ old') (new ++ new') (alike && alike') (plain && plain')
      (few && few') (bytes ++ bytes') where
  isAlike := Bool.and_eq_true_iff.mpr ⟨h.isAlike, h'.isAlike⟩
  isPlain := Bool.and_eq_true_iff.mpr ⟨h.isPlain, h'.isPlain⟩
  fewEnough := Bool.and_eq_true_iff.mpr ⟨h.fewEnough, h'.fewEnough⟩
  spells := h.spells.append h'.spells
  weight := by
    intro hsome hnone
    obtain ⟨rfl, rfl⟩ := List.append_eq_nil_iff.mp hnone
    have hold : old.flatMap token = [] := Classical.byContradiction fun hne => h.weight hne rfl
    have hold' : old'.flatMap token = [] := Classical.byContradiction fun hne => h'.weight hne rfl
    rw [List.flatMap_append, hold, hold'] at hsome
    exact hsome rfl

end Decoded

/-- What is known of a record that was decoded inside of another one. -/
def DecodedInside (token : Stop → Bytes) (spell : Stop → Bytes → Prop) (old new : Record)
    (bytes : Bytes) : Prop :=
  Decoded token spell (old.stops ++ [.close]) (new.stops ++ [.close]) (old.alike new) new.isPlain
    (new.everySequence fewEnough) bytes

/-- What is known of decoded items, each in the place of the blank one. -/
theorem decoded_items {token : Stop → Bytes} {spell : Stop → Bytes → Prop} {blank : Record}
    {rs : List Record} {bytes : Bytes} (h : Spells (DecodedInside token spell blank) rs bytes) :
    itemsPlain blank rs ∧ everySequenceOfItems fewEnough rs ∧
      Spells spell (itemStops rs) bytes := by
  induction rs generalizing bytes with
  | nil => exact ⟨rfl, rfl, h⟩
  | cons r rs ih =>
    obtain ⟨d, d', rfl, hr, hrs⟩ := h
    obtain ⟨hplain, hfew, hspells⟩ := ih hrs
    have hfirst : r.isPlain && blank.alike r := Bool.and_eq_true_iff.mpr ⟨hr.isPlain, hr.isAlike⟩
    exact ⟨Bool.and_eq_true_iff.mpr ⟨hfirst, hplain⟩,
      Bool.and_eq_true_iff.mpr ⟨hr.fewEnough, hfew⟩, hr.spells.append hspells⟩

/-! ### What is asked of a decoder -/

variable {σ : Type} [Codec σ] [HoldsCursor σ]

open HoldsCursor

/-- How a decoder handles leaves and closes, whatever its input is: each piece that it consumes is
spelled by the stop that it gives. -/
structure Accepts (τ : Terms σ) (token : Stop → Bytes) (spell : Stop → Bytes → Prop) : Prop where
  unread : ∀ m : σ, Codec.unread m = some (cursor m).unread
  exhausted : ∀ {requested left}, left < requested → τ.lacks (.bufferExhausted requested left)
  /-- The count of a sequence takes bytes. -/
  count : ∀ name n, token (.leaf ⟨name, .u32, n⟩) ≠ []
  leaf : ∀ (kind : Kind) (name : String) (old : kind.Value),
    Act.Exact τ (Act.ofVisit (visitLeaf kind name old)) fun v data =>
      kind.fixedLength old = kind.fixedLength v ∧ spell (.leaf ⟨name, kind, v⟩) data ∧
        (token (.leaf ⟨name, kind, old⟩) ≠ [] → data ≠ [])
  close : Act.Exact τ Codec.close fun _ data => spell .close data ∧ (token .close ≠ [] → data ≠ [])

namespace Accepts

variable {τ : Terms σ} {token : Stop → Bytes} {spell : Stop → Bytes → Prop}

/-! ### Parts of a record -/

section

variable (law : Accepts τ token spell)

include law

theorem exact_nested {visit : Traversal σ → Visited σ Record} (r : Record)
    (h : Act.Exact τ (Act.ofVisit visit) fun r' data =>
      Decoded token spell r.stops r'.stops (r.alike r') r'.isPlain (r'.everySequence fewEnough)
        data) :
    Act.Exact τ (Act.ofVisit (visitNested visit r)) (DecodedInside token spell r) := by
  rw [Act.ofVisit_nested]
  refine (Act.exact_check.bind fun _ => h.bind fun _ =>
    law.close.bind fun _ => Act.exact_pure _).mono ?_
  rintro r' - ⟨-, -, -, rfl, rfl, _, d, -, rfl, hfields, -, d', -, rfl, ⟨hclose, hweight⟩, rfl, rfl⟩
  have hdecoded := hfields.append (.singleton rfl hclose hweight)
  rw [Bool.and_true, Bool.and_true, Bool.and_true] at hdecoded
  rwa [List.nil_append, List.append_nil]

/-- The unread input is what is ahead. -/
theorem shortage_eq {m : σ} {bs : Bytes} {t : Traversal σ} (ht : Facing m bs t) (count : Nat) :
    shortage count t = if bs.length < count then some bs.length else none := by
  have hunread : Codec.unread t.store = some bs.length := by
    rw [law.unread, ← Cursor.length_rest ht.inside, ht.rest]
  rw [shortage, hunread, Option.filter_some]
  by_cases h : bs.length < count
  · rw [if_pos h, decide_eq_true h, if_pos rfl]
  · rw [if_neg h, decide_eq_false h]
    rfl

omit [Codec σ] law in
theorem exact_copies {item : Traversal σ → Visited σ Record} {P : Record → Bytes → Prop}
    (h : Act.Exact τ (Act.ofVisit item) P) (n : Nat) :
    Act.Exact τ (Act.ofVisit (visitCopies item n)) fun rs data =>
      rs.length = n ∧ Spells P rs data := by
  induction n with
  | zero =>
    refine (Act.exact_pure []).mono ?_
    rintro rs data ⟨rfl, rfl⟩
    exact ⟨rfl, rfl⟩
  | succ n ih =>
    rw [Act.ofVisit_copies_succ]
    refine (h.bind fun _ => ih.bind fun _ => Act.exact_pure _).mono ?_
    rintro rs - ⟨r, d, -, rfl, hr, rest, d', -, rfl, ⟨hlength, hrest⟩, rfl, rfl⟩
    rw [List.append_nil]
    exact ⟨congrArg (· + 1) hlength, d, d', rfl, hr, hrest⟩

/-- **The items of a sequence.** On firm terms, the count that is compared with what is ahead is no
greater than the number of bytes that the items take, so what follows them does not matter. -/
theorem exact_decodeItems {item : Traversal σ → Visited σ Record} {P : Record → Bytes → Prop}
    (h : Act.Exact τ (Act.ofVisit item) P) (hsome : τ.firm → ∀ r data, P r data → data ≠ [])
    (count : Nat) :
    Act.Exact τ (Act.ofVisit (decodeItems item count)) fun rs data =>
      rs.length = count ∧ Spells P rs data := by
  have hcopies : ∀ {t}, shortage count t = none →
      Act.ofVisit (decodeItems item count) t = Act.ofVisit (visitCopies item count) t := by
    intro t ht
    simp only [Act.ofVisit, decodeItems, ht]
  have hfail : ∀ {t left}, shortage count t = some left → t.error = none →
      Act.ofVisit (decodeItems item count) t =
        ⟨.error (.bufferExhausted count left),
          { t with error := some (.bufferExhausted count left) },
          [.failed t.direction (.bufferExhausted count left)]⟩ := by
    intro t left hleft ht
    simp only [Act.ofVisit, decodeItems, hleft, Visited.ofAct, Act.fail, ht, Except.map]
  refine ⟨?_⟩
  intro bs t rs ht hrs
  cases hleft : shortage count t with
  | some left =>
    rw [hfail hleft ht.clean] at hrs
    cases hrs
  | none =>
    rw [hcopies hleft] at hrs ⊢
    obtain ⟨data, more, hbs, hmore, ⟨hlength, hspells⟩, hneeds⟩ :=
      (exact_copies h count).accounts ht hrs
    refine ⟨data, more, hbs, hmore, ⟨hlength, hspells⟩, fun hfirm => ⟨?_, ?_⟩⟩
    · intro rest u hu
      have hcount : count ≤ data.length := hlength ▸ hspells.length_le (hsome hfirm)
      have hnone : shortage count u = none := by
        rw [law.shortage_eq hu, List.length_append, if_neg (by omega)]
      rw [hcopies hnone]
      exact (hneeds hfirm).reads rest u hu
    · intro front back u hdata hback hu
      by_cases hlack : front.length < count
      · rw [hfail (by rw [law.shortage_eq hu, if_pos hlack]) hu.clean]
        exact ⟨_, rfl, rfl, law.exhausted hlack⟩
      · rw [hcopies (by rw [law.shortage_eq hu, if_neg hlack])]
        exact (hneeds hfirm).starves hdata hback hu

theorem exact_sequence {name : String} {items : List Record} {blank : Record}
    (hblank : blank.isPlain) (hsome : τ.firm → takesByte token blank)
    (h : Act.Exact τ (Act.ofVisit (visitNested blank.visit blank))
      (DecodedInside token spell blank)) :
    Act.Exact τ (Act.ofVisit (Field.sequence name items blank).visit) fun g data =>
      Decoded token spell (Field.sequence name items blank).stops g.stops
        ((Field.sequence name items blank).alike g) g.isPlain (g.everySequence fewEnough) data := by
  have hcount := law.leaf .u32 name (UInt32.ofNat items.length)
  have hitems := law.exact_decodeItems h fun hfirm r data hr =>
    hr.weight (takesByte_iff.mp (hsome hfirm))
  have hboth := hcount.bind fun count => (hitems count.toNat).bind fun rs =>
    Act.exact_pure (Field.sequence name rs blank)
  refine (hboth.mono ?_).congr ?_
  · rintro g - ⟨count, d, -, rfl, ⟨-, hspell, hweight⟩, rs, d', -, rfl, ⟨hlength, hspells⟩, rfl,
      rfl⟩
    obtain ⟨hplain, hfew, hstops⟩ := decoded_items hspells
    have halike : (Field.sequence name items blank).alike (.sequence name rs blank) := by
      rw [Field.alike, beq_self_eq_true, Bool.true_and]
      exact Record.alike_refl hblank
    have hsame : UInt32.ofNat rs.length = count := by rw [hlength, UInt32.ofNat_toNat]
    have hsmall : fewEnough rs := by
      rw [fewEnough, hlength]
      exact decide_eq_true count.toNat_lt
    rw [List.append_nil]
    refine ⟨halike, Bool.and_eq_true_iff.mpr ⟨hblank, hplain⟩,
      Bool.and_eq_true_iff.mpr ⟨hsmall, hfew⟩, ?_, ?_⟩
    · rw [Field.stops, hsame]
      exact ⟨d, d', rfl, hspell, hstops⟩
    · intro _ hnone
      exact hweight (law.count name _) (List.append_eq_nil_iff.mp hnone).1
  · intro bs t ht
    refine Act.ofVisit_sequence ?_
    intro u hu
    obtain ⟨_, _, -, hafter, -⟩ := hcount.accounts ht (Act.result_ofVisit_eq_ok.mpr ⟨hu, rfl⟩)
    exact hafter.decodes

end

/-! ### Records -/

mutual

theorem exact_field (law : Accepts τ token spell) : ∀ {f : Field}, f.isPlain →
    (τ.firm → f.everyBlank (takesByte token)) →
    Act.Exact τ (Act.ofVisit f.visit) fun g data =>
      Decoded token spell f.stops g.stops (f.alike g) g.isPlain (g.everySequence fewEnough) data
  | .leaf name kind old, _, _ => by
    have hvisit : (Field.leaf name kind old).visit =
        fun t : Traversal σ => (visitLeaf kind name old t).map (.leaf name kind) := by
      funext t
      rw [Field.visit]
    rw [hvisit, Act.ofVisit_map]
    refine ((law.leaf kind name old).bind fun _ => Act.exact_pure _).mono ?_
    rintro g - ⟨v, d, -, rfl, ⟨hlength, hspell, hweight⟩, rfl, rfl⟩
    have halike : (Field.leaf name kind old).alike (.leaf name kind v) := by
      rw [Field.alike, hlength]
      simp only [beq_self_eq_true, Bool.and_self]
    rw [List.append_nil]
    exact .singleton halike hspell hweight
  | .signed name w old, _, _ => by
    have hvisit : (Field.signed name w old).visit =
        fun t : Traversal σ => (visitSigned w name old t).map (.signed name w) := by
      funext t
      rw [Field.visit]
    rw [hvisit, Act.ofVisit_map, Act.ofVisit_signed]
    refine (((law.leaf w.carrier name (w.toCarrier old)).bind fun _ =>
      Act.exact_pure _).bind fun _ => Act.exact_pure _).mono ?_
    rintro g - ⟨v, -, -, rfl, ⟨u, d, -, rfl, ⟨-, hspell, hweight⟩, rfl, rfl⟩, rfl, rfl⟩
    have halike : (Field.signed name w old).alike (.signed name w (w.ofCarrier u)) := by
      simp only [Field.alike, beq_self_eq_true, Bool.and_self]
    rw [Field.stops, Field.stops, Signed.toCarrier_ofCarrier, List.append_nil, List.append_nil]
    exact .singleton halike hspell hweight
  | .nested name body, hplain, hsome => by
    have hvisit : (Field.nested name body).visit =
        fun t : Traversal σ => (visitNested (Record.visit body) body t).map (.nested name) := by
      funext t
      rw [Field.visit]
    have hbody := law.exact_nested body (exact_record law hplain hsome)
    rw [hvisit, Act.ofVisit_map]
    refine (hbody.bind fun _ => Act.exact_pure _).mono ?_
    rintro g - ⟨r, d, -, rfl, hr, rfl, rfl⟩
    have halike : (Field.nested name body).alike (.nested name r) = body.alike r := by
      rw [Field.alike, beq_self_eq_true, Bool.true_and]
    rw [List.append_nil, halike]
    exact hr
  | .sequence name items blank, hplain, hsome => by
    rw [Field.isPlain, Bool.and_eq_true] at hplain
    rw [Field.everyBlank, Bool.and_eq_true] at hsome
    have hblank := law.exact_nested blank (exact_record law hplain.1 fun hfirm => (hsome hfirm).2)
    exact law.exact_sequence hplain.1 (fun hfirm => (hsome hfirm).1) hblank

/-- **What is decoded as a record** is spelled by its stops. -/
theorem exact_record (law : Accepts τ token spell) : ∀ {r : Record}, r.isPlain →
    (τ.firm → r.everyBlank (takesByte token)) →
    Act.Exact τ (Act.ofVisit r.visit) fun r' data =>
      Decoded token spell r.stops r'.stops (r.alike r') r'.isPlain (r'.everySequence fewEnough)
        data
  | .strict fs, hplain, hsome => by
    have hvisit : (Record.strict fs).visit =
        fun t : Traversal σ => (visitFields fs t).map .strict := by
      funext t
      rw [Record.visit]
    rw [hvisit, Act.ofVisit_map]
    refine ((exact_fields law hplain hsome).bind fun _ => Act.exact_pure _).mono ?_
    rintro r' - ⟨gs, d, -, rfl, hgs, rfl, rfl⟩
    rwa [List.append_nil]

theorem exact_fields (law : Accepts τ token spell) : ∀ {fs : List Field}, fieldsPlain fs →
    (τ.firm → everyBlankOfFields (takesByte token) fs) →
    Act.Exact τ (Act.ofVisit (visitFields fs)) fun gs data =>
      Decoded token spell (fieldStops fs) (fieldStops gs) (fieldsAlike fs gs) (fieldsPlain gs)
        (everySequenceOfFields fewEnough gs) data
  | [], _, _ => by
    refine (Act.exact_pure []).mono ?_
    rintro gs data ⟨rfl, rfl⟩
    exact .nil
  | f :: fs, hplain, hsome => by
    rw [fieldsPlain, Bool.and_eq_true] at hplain
    rw [everyBlankOfFields, Bool.and_eq_true] at hsome
    have hfirst := exact_field law hplain.1 fun hfirm => (hsome hfirm).1
    have hothers := exact_fields law hplain.2 fun hfirm => (hsome hfirm).2
    rw [Act.ofVisit_fields_cons]
    refine (hfirst.bind fun _ => hothers.bind fun _ => Act.exact_pure _).mono ?_
    rintro gs' - ⟨g, d, -, rfl, hg, gs, d', -, rfl, hgs, rfl, rfl⟩
    rw [List.append_nil]
    exact hg.append hgs

end

/-! ### Runs -/

/-- **A run that succeeds** moves on over bytes that the stops of its record spell, in a decoder
whose runs begin and end with nothing. -/
theorem run_consumes (law : Accepts τ token spell) {buffer : Bytes} {r : Record}
    {t : Traversal σ} (hr : r.isPlain) (hsome : τ.firm → r.everyBlank (takesByte token))
    (hopen : Codec.openRun t = ⟨.ok (), t, []⟩)
    (hclose : ∀ u : Traversal σ, Codec.closeRun u = ⟨.ok (), u, []⟩)
    (hfacing : t.error = none → Facing τ.memory (cursor t.store).rest t)
    (hbefore : (cursor t.store).Whole buffer) (hafter : (cursor (run r t).state.store).Whole buffer)
    (hrun : (run r t).result = .ok ()) :
    let offset := (cursor t.store).offset
    let offsetAfter := (cursor (run r t).state.store).offset
    let consumed := (buffer.drop offset).take (offsetAfter - offset)
    offset + consumed.length = offsetAfter ∧
      Decoded token spell r.stops (run r t).value.stops (r.alike (run r t).value)
        (run r t).value.isPlain ((run r t).value.everySequence fewEnough) consumed := by
  intro offset offsetAfter consumed
  obtain ⟨hclean, -, hbody, -, hvalue, hstate⟩ :=
    run_succeeded (fun u hu => by rwa [hclose u]) hrun
  rw [hopen] at hbody hvalue hstate
  rw [hclose] at hstate
  obtain ⟨data, more, hrest, hmore, hdecoded, -⟩ := (law.exact_record hr hsome).accounts
    (hfacing hclean) (Act.result_ofVisit_eq_ok.mpr ⟨hbody, rfl⟩)
  -- both offsets are known by what is ahead of them
  have hahead : (cursor (run r t).state.store).rest = more := by
    rw [hstate]
    exact hmore.rest
  have hmoved : offset + data.length = offsetAfter := by
    have hplace := hbefore.offset_add
    have hplace' := hafter.offset_add
    rw [hrest, List.length_append] at hplace
    rw [hahead] at hplace'
    omega
  have hconsumed : consumed = data := by
    show (buffer.drop offset).take (offsetAfter - offset) = data
    rw [← hbefore.rest_eq, hrest, ← hmoved, Nat.add_sub_cancel_left, List.take_left]
  rw [hconsumed, hvalue]
  exact ⟨hmoved, hdecoded⟩

end Accepts

end RecordCodec
