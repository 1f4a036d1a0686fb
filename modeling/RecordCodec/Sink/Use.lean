import RecordCodec.Sink

/-!
# Direct use of a sink

The ways in which a sink can be used without an encoder, each with what it answers. Bytes that are
written go into a slice just allocated or asked for, as far as the slice reaches.
-/

namespace RecordCodec.Sink

/-- One use of a sink. -/
inductive Use where
  /-- Allocates `n` bytes, looks at them, and writes into them. -/
  | alloc (n : Nat) (data : Bytes)
  /-- Asks whether `n` bytes fit. -/
  | reserve (n : Nat)
  /-- Sets the committed length. -/
  | setLength (n : Nat)
  /-- Looks at a slice of the committed bytes, and writes into it. -/
  | slice (offset n : Nat) (data : Bytes)
  /-- Drops all bytes of a growable sink. -/
  | clear
  deriving DecidableEq, Repr

/-- What a use answers. -/
inductive Answer where
  /-- The contents of a slice before bytes were written into it. -/
  | contents (bytes : Bytes)
  /-- The sink has room, or not. -/
  | room (result : Except Error Unit)
  /-- There was no room for an allocation. -/
  | refused (error : Error)
  /-- The sink was not used as it may be. -/
  | misused (mistake : Misuse)
  /-- The length is set. -/
  | lengthSet
  /-- The sink was cleared, or is not of the kind that can be. -/
  | cleared (done : Bool)

/-- Looks at a slice, and writes into it. -/
def useSlice (offset n : Nat) (data : Bytes) (s : Sink) : Answer × Sink :=
  match s.slice offset n with
  | .error m => (.misused m, s)
  | .ok bs => (.contents bs, s.write offset (data.take n))

/-- Uses a sink once. -/
def use (s : Sink) : Use → Answer × Sink
  | .alloc n data =>
    match s.alloc n with
    | .error e => (.refused e, s)
    | .ok grown => useSlice s.length n data grown
  | .reserve n => (.room (s.reserve n), s)
  | .setLength n =>
    match s.setLength n with
    | .error m => (.misused m, s)
    | .ok moved => (.lengthSet, moved)
  | .slice offset n data => useSlice offset n data s
  | .clear => (.cleared s.clear.2, s.clear.1)

end RecordCodec.Sink
