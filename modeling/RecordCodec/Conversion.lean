import RecordCodec.Binary.Decoder
import RecordCodec.Binary.Encoder
import RecordCodec.Binary.Sizer
import RecordCodec.Binary.Summer
import RecordCodec.Dump
import RecordCodec.Key.Decoder
import RecordCodec.Key.Encoder

/-!
# Converting single records

One run of a fresh codec, for each codec: the common case in which a traversal is one record.

A record may change while it is visited, even by a codec that only looks at it, because its fields
can keep what they saw. So each conversion gives the record back beside its result.
-/

namespace RecordCodec

/-- What a conversion leaves: its result, the record after it, and its events. -/
structure Report (α : Type) where
  result : Except Error α
  record : Record
  log : List Event

/-- The report of a run, whose result is read off the state in the end. -/
def Report.ofRun {σ α : Type} (v : Visited σ Record) (result : Traversal σ → α) : Report α :=
  ⟨v.result.map fun _ => result v.state, v.value, v.log⟩

namespace Record

/-- The number of bytes of the record's binary form. -/
def encodedSize (r : Record) (context : Context) (options : Mask) : Report Nat :=
  .ofRun (run r (Sizer.start context options)) fun t => t.store.size

/-- The record's binary form. It is measured first, and a record that cannot be measured is not
encoded. -/
def encode (r : Record) (context : Context) (options : Mask) : Report Bytes :=
  let size := r.encodedSize context options
  match size.result with
  | .error e => ⟨.error e, size.record, size.log⟩
  | .ok _ =>
    let bytes := Report.ofRun (run size.record (Encoder.start context options (Sink.empty none)))
      fun t => t.store.sink.committed
    { bytes with log := size.log ++ bytes.log }

/-- Encodes the record into storage of fixed size, and gives the number of bytes beside the storage
afterwards. -/
def encodeInto (r : Record) (storage : Bytes) (context : Context) (options : Mask) :
    Report Nat × Bytes :=
  let v := run r (Encoder.start context options (Sink.overStorage storage))
  (.ofRun v fun t => t.store.sink.length, v.state.store.sink.storage)

/-- Decodes a byte string into the record. -/
def decode (r : Record) (buffer : Bytes) (context : Context) (options : Mask) : Report Unit :=
  .ofRun (run r (Decoder.start context options buffer)) fun _ => ()

/-- The checksum of the record's binary form. -/
def checksum (r : Record) (context : Context) : Report UInt32 :=
  .ofRun (run r (Summer.start context)) fun t => t.store.sum

/-- The record's key. -/
def key (r : Record) (border : Option String) : Report Bytes :=
  .ofRun (run r (KeyEncoder.start border (Sink.empty none))) fun t => t.store.sink.committed

/-- Decodes a key into the record. -/
def decodeKey (r : Record) (token : Bytes) (border : Option String) : Report Unit :=
  .ofRun (run r (KeyDecoder.start border token)) fun _ => ()

/-- The record's text dump. -/
def dump (r : Record) (options : Mask) : Report String :=
  .ofRun (run r (Dump.start .storage options)) fun t => t.store.text

end Record

end RecordCodec
