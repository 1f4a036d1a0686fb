import RecordCodec.Act
import RecordCodec.Record

/-!
# Visiting records

A codec says how one leaf is handled; how a record is gone through is the same for every codec and
is written once, here. `Codec` is what a codec must say, and `Record.visit`, `Field.visit` are the
walk.

## What a codec says

* `Codec.visit` handles one leaf and gives its value from then on. It fails before the value is
  replaced, or it succeeds.
* `Codec.close` ends a leaf or a nested record that was visited without failure. It is apart from
  `visit` because a decoder that fails in `close` has already delivered the value.
* `Codec.unread` is the input left, for a codec that reads; `Codec.rewind` goes back to its start.
* `Codec.openRun` and `Codec.closeRun` stand before and after a whole record given to `run`.

## Why a visit is not an act

What a failed act leaves of its value is nothing. A failed visit of a record leaves the record with
the values that were reached before the failure, so a visit (`Visited`) has a value whatever its
result is.

## Sequences

A sequence is its count, visited as a leaf under the name of the sequence, and then its items. A
decoder throws the old items away once it knows the count and decodes copies of the blank item. A
count above the unread input cannot be true, since every item takes a byte or more, and fails
before any item is made. A count that does not fit 32 bits wraps around.
-/

namespace RecordCodec

/-- What a visit leaves: its result, the visited value, the state after it, and its events. -/
structure Visited (σ α : Type) where
  result : Except Error Unit
  value : α
  state : Traversal σ
  log : List Event

namespace Visited

variable {σ α β : Type}

/-- The same visit with its value put into another one. -/
def map (f : α → β) (v : Visited σ α) : Visited σ β :=
  ⟨v.result, f v.value, v.state, v.log⟩

/-- Does an act after a visit, unless the visit failed. -/
def followedBy (v : Visited σ α) (act : Act σ Unit) : Visited σ α :=
  match v.result with
  | .error _ => v
  | .ok () =>
    let after := act v.state
    ⟨after.result, v.value, after.state, v.log ++ after.log⟩

/-- The visit of a value that an act leaves alone. -/
def ofAct (act : Act σ Unit) (a : α) (t : Traversal σ) : Visited σ α :=
  let after := act t
  ⟨after.result, a, after.state, after.log⟩

end Visited

/-- How a codec with memory `σ` handles leaves and frames records. -/
class Codec (σ : Type) where
  /-- Handles one leaf, and gives its value from then on. -/
  visit : (kind : Kind) → String → kind.Value → Act σ kind.Value
  /-- Ends a leaf or a nested record. -/
  close : Act σ Unit := pure ()
  /-- The input left to read, for a codec that reads. -/
  unread : σ → Option Nat := fun _ => none
  /-- Goes back to the start of the input, for a codec that can. -/
  rewind : σ → σ := id
  /-- Begins a run. -/
  openRun : Act σ Unit := pure ()
  /-- Ends a run, whether its record failed or not. -/
  closeRun : Act σ Unit := pure ()

variable {σ : Type} [Codec σ]

/-- What a field that looks at the traversal sees. -/
def Traversal.sighting (t : Traversal σ) : Sighting :=
  ⟨t.direction, t.context, t.options, Codec.unread t.store, t.error.isSome⟩

/-- Visits a leaf. -/
def visitLeaf (kind : Kind) (name : String) (value : kind.Value) (t : Traversal σ) :
    Visited σ kind.Value :=
  let seen := Codec.visit kind name value t
  match seen.result with
  | .error e => ⟨.error e, value, seen.state, seen.log⟩
  | .ok new => Visited.followedBy ⟨.ok (), new, seen.state, seen.log⟩ Codec.close

/-- Visits a signed integer as its carrier. The integer is replaced if all of the visit succeeds. -/
def visitSigned (width : Signed) (name : String) (value : width.Value) (t : Traversal σ) :
    Visited σ width.Value :=
  let seen := visitLeaf width.carrier name (width.toCarrier value) t
  match seen.result with
  | .error e => ⟨.error e, value, seen.state, seen.log⟩
  | .ok () => ⟨.ok (), width.ofCarrier seen.value, seen.state, seen.log⟩

/-- Visits a record inside a traversal, given the visit of its fields. -/
def visitNested (fields : Traversal σ → Visited σ Record) (r : Record) (t : Traversal σ) :
    Visited σ Record :=
  match t.error with
  | some e => ⟨.error e, r, t, []⟩
  | none => (fields t).followedBy Codec.close

/-- Visits `n` copies of an item one after another, given the visit of one copy, and keeps those
that were visited without failure. -/
def visitCopies (item : Traversal σ → Visited σ Record) :
    Nat → Traversal σ → Visited σ (List Record)
  | 0, t => ⟨.ok (), [], t, []⟩
  | n + 1, t =>
    let first := item t
    match first.result with
    | .error e => ⟨.error e, [], first.state, first.log⟩
    | .ok () =>
      let others := visitCopies item n first.state
      ⟨others.result, first.value :: others.value, others.state, first.log ++ others.log⟩

/-- The input left to read, where it is less than a count asks for. -/
def shortage (count : Nat) (t : Traversal σ) : Option Nat :=
  (Codec.unread t.store).filter (· < count)

/-- Decodes the items of a sequence whose count is known, given the visit of one blank item. -/
def decodeItems (item : Traversal σ → Visited σ Record) (count : Nat) (t : Traversal σ) :
    Visited σ (List Record) :=
  match shortage count t with
  | some left => Visited.ofAct (Act.fail (.bufferExhausted count left)) [] t
  | none => visitCopies item count t

mutual

/-- Visits the fields of a record, without framing the record itself. -/
def Record.visit : Record → Traversal σ → Visited σ Record
  | .strict fields, t => (visitFields fields t).map .strict
  | .lenient fields results, t =>
    (visitEach fields t).map fun seen => .lenient seen.2 (results ++ seen.1)

/-- Visits one field. -/
def Field.visit : Field → Traversal σ → Visited σ Field
  | .leaf name kind value, t => (visitLeaf kind name value t).map (.leaf name kind)
  | .signed name width value, t => (visitSigned width name value t).map (.signed name width)
  | .nested name body, t => (visitNested (Record.visit body) body t).map (.nested name)
  | .sequence name items item, t =>
    let count := visitLeaf .u32 name (UInt32.ofNat items.length) t
    match count.result with
    | .error e => ⟨.error e, .sequence name items item, count.state, count.log⟩
    | .ok () =>
      let rest := match count.state.direction with
        | .decode =>
          decodeItems (visitNested (Record.visit item) item) count.value.toNat count.state
        | _ => visitItems items count.state
      ⟨rest.result, .sequence name rest.value item, rest.state, count.log ++ rest.log⟩
  | .guarded guard body, t =>
    if guard.holds t then (Record.visit body t).map (.guarded guard)
    else ⟨.ok (), .guarded guard body, t, []⟩
  | .failing e, t => Visited.ofAct (Act.fail e) (.failing e) t
  | .raising e, t => ⟨.error e, .raising e, t, []⟩
  | .recovering taken, t =>
    ⟨.ok (), .recovering (taken ++ [t.error]), { t with error := none }, []⟩
  | .watching seen, t => ⟨.ok (), .watching (seen ++ [t.sighting]), t, []⟩

/-- Visits fields up to the first that fails. -/
def visitFields : List Field → Traversal σ → Visited σ (List Field)
  | [], t => ⟨.ok (), [], t, []⟩
  | f :: fs, t =>
    let first := Field.visit f t
    match first.result with
    | .error e => ⟨.error e, first.value :: fs, first.state, first.log⟩
    | .ok () =>
      let others := visitFields fs first.state
      ⟨others.result, first.value :: others.value, others.state, first.log ++ others.log⟩

/-- Visits all fields, and gives the result of each beside them. Never fails itself. -/
def visitEach : List Field → Traversal σ →
    Visited σ (List (Except Error Unit) × List Field)
  | [], t => ⟨.ok (), ([], []), t, []⟩
  | f :: fs, t =>
    let first := Field.visit f t
    let others := visitEach fs first.state
    ⟨.ok (), (first.result :: others.value.1, first.value :: others.value.2), others.state,
      first.log ++ others.log⟩

/-- Visits the items of a sequence up to the first that fails. -/
def visitItems : List Record → Traversal σ → Visited σ (List Record)
  | [], t => ⟨.ok (), [], t, []⟩
  | r :: rs, t =>
    let first := visitNested (Record.visit r) r t
    match first.result with
    | .error e => ⟨.error e, first.value :: rs, first.state, first.log⟩
    | .ok () =>
      let others := visitItems rs first.state
      ⟨others.result, first.value :: others.value, others.state, first.log ++ others.log⟩

end

/-- Stores the error that a visit gave, unless one is stored already. -/
def settle (result : Except Error Unit) : Act σ Unit :=
  match result with
  | .error e => Act.fail e
  | .ok () => pure ()

/-- Takes one record through a codec and gives the first error of the traversal. -/
def run (r : Record) (t : Traversal σ) : Visited σ Record :=
  match t.error with
  | some e => ⟨.error e, r, t, []⟩
  | none =>
    let opened := (Codec.openRun : Act σ Unit) t
    match opened.result with
    | .error e => ⟨.error e, r, opened.state, opened.log⟩
    | .ok () =>
      let body := r.visit opened.state
      let settled := settle body.result body.state
      let closed := (Codec.closeRun : Act σ Unit) settled.state
      ⟨closed.state.check, body.value, closed.state,
        opened.log ++ body.log ++ settled.log ++ closed.log⟩

end RecordCodec
