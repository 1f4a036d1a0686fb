import RecordCodec.Visit

/-!
# Histories of a traversal

Between its runs a traversal can be used directly: a field can be visited outside of any record, an
error can be stored from outside, the stored error can be taken away, after which the traversal may
go on, and a decoder can be sent back to the start of its input. A history is a list of such steps,
each with its reply.
-/

namespace RecordCodec

/-- One use of a traversal. -/
inductive Step where
  /-- Takes a record through the codec. -/
  | run (record : Record)
  /-- Visits a field outside of a run. -/
  | visit (field : Field)
  /-- Takes the stored error away. -/
  | takeError
  /-- Stores an error, unless one is stored. -/
  | fail (error : Error)
  /-- Goes back to the start of the input. The stored error stays. -/
  | rewind

/-- What a step answers. -/
inductive Reply where
  | ran (result : Except Error Unit) (record : Record)
  | visited (result : Except Error Unit) (field : Field)
  | took (error : Option Error)
  | failed (result : Except Error Unit)
  | rewound

/-- What a step leaves. -/
structure Stepped (σ : Type) where
  reply : Reply
  state : Traversal σ
  log : List Event

variable {σ : Type} [Codec σ]

/-- Does one step. -/
def Step.perform : Step → Traversal σ → Stepped σ
  | .run r, t =>
    let v := RecordCodec.run r t
    ⟨.ran v.result v.value, v.state, v.log⟩
  | .visit f, t =>
    let v := f.visit t
    ⟨.visited v.result v.value, v.state, v.log⟩
  | .takeError, t => ⟨.took t.error, { t with error := none }, []⟩
  | .fail e, t =>
    let o := (Act.fail e : Act σ Unit) t
    ⟨.failed o.result, o.state, o.log⟩
  | .rewind, t => ⟨.rewound, { t with store := Codec.rewind t.store }, []⟩

/-- Does steps one after another. -/
def performAll : List Step → Traversal σ → List Reply × Traversal σ × List Event
  | [], t => ([], t, [])
  | s :: ss, t =>
    let first := s.perform t
    let others := performAll ss first.state
    (first.reply :: others.1, others.2.1, first.log ++ others.2.2)

end RecordCodec
