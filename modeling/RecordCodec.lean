import RecordCodec.Bytes
import RecordCodec.Text.Hex
import RecordCodec.Text.Utf8
import RecordCodec.Text.Quoted
import RecordCodec.Checksum
import RecordCodec.Error
import RecordCodec.Traversal
import RecordCodec.Event
import RecordCodec.Act
import RecordCodec.ByteBlock
import RecordCodec.Kind
import RecordCodec.Record
import RecordCodec.Visit
import RecordCodec.Sink
import RecordCodec.Sink.Use
import RecordCodec.Sink.Words
import RecordCodec.Cursor
import RecordCodec.Binary.Length
import RecordCodec.Binary.Encoder
import RecordCodec.Binary.Decoder
import RecordCodec.Binary.Sizer
import RecordCodec.Binary.Summer
import RecordCodec.Key.Encoder
import RecordCodec.Key.Decoder
import RecordCodec.Dump
import RecordCodec.Step
import RecordCodec.Conversion
import RecordCodec.Registry.Range
import RecordCodec.Registry.Catalogue
import RecordCodec.Registry.Lookup
import RecordCodec.Registry.Schema
import RecordCodec.Itinerary
import RecordCodec.Binary.Layout
import RecordCodec.Key.Layout
import RecordCodec.Proofs.Faithful
import RecordCodec.Proofs.Walk
import RecordCodec.Proofs.Sink.Room
import RecordCodec.Proofs.Sink.Writes
import RecordCodec.Proofs.Binary.Encoding
import RecordCodec.Proofs.Alike
import RecordCodec.Proofs.Delivery
import RecordCodec.Proofs.Reads
import RecordCodec.Proofs.Binary.Decoding
import RecordCodec.Proofs.Binary.RoundTrip
import RecordCodec.Proofs.Checksum
import RecordCodec.Proofs.Binary.Integrity
import RecordCodec.Proofs.ByteOrder
import RecordCodec.Proofs.Key.Encoding
import RecordCodec.Proofs.Comparison
import RecordCodec.Proofs.Key.Order
import RecordCodec.Proofs.History
import RecordCodec.Proofs.Sink.Commits
import RecordCodec.Proofs.Binary.Success
import RecordCodec.Proofs.Absorption
import RecordCodec.Proofs.Binary.Size
import RecordCodec.Proofs.Binary.Digest
import RecordCodec.Proofs.Binary.Interleaving
import RecordCodec.Proofs.Binary.Transparency
import RecordCodec.Proofs.Invariant
import RecordCodec.Proofs.Bounds
import RecordCodec.Proofs.Key.Decoding
import RecordCodec.Proofs.Key.RoundTrip
import RecordCodec.Proofs.Refusal
import RecordCodec.Proofs.Consumption
import RecordCodec.Proofs.Acceptance
import RecordCodec.Proofs.Binary.Acceptance
import RecordCodec.Proofs.Binary.Canonical
import RecordCodec.Proofs.Key.Acceptance
import RecordCodec.Proofs.Truncation
import RecordCodec.Proofs.Passive
import RecordCodec.Proofs.Leniency
import RecordCodec.Proofs.Sink.Overrun
import RecordCodec.Proofs.Binary.Destination
import RecordCodec.Proofs.Moments
import RecordCodec.Proofs.Binary.Frame
import RecordCodec.Proofs.Advance
import RecordCodec.Proofs.Binary.Advance
import RecordCodec.Proofs.Key.Advance
import RecordCodec.Proofs.Orderly
import RecordCodec.Proofs.Binary.Safety
import RecordCodec.Proofs.Safety
import RecordCodec.Proofs.Observation
import RecordCodec.Proofs.Registry.Coverage
import RecordCodec.Proofs.Registry.Lookup
import RecordCodec.Proofs.Separation
import RecordCodec.Proofs.Key.Canonical
import RecordCodec.Proofs.Announcement
import RecordCodec.Proofs.FirstError
import RecordCodec.Proofs.Interchange
import RecordCodec.Proofs.Lawful
import RecordCodec.Proofs.Sequences
import RecordCodec.Proofs.Contents
import RecordCodec.Proofs.Registry.Ranges
import RecordCodec.Proofs.Registry.Arrangement
import RecordCodec.Proofs.Registry.RoundTrip
import RecordCodec.Proofs.StopByStop
import RecordCodec.Proofs.Interruption
import RecordCodec.Proofs.Binary.Terminators
import RecordCodec.Proofs.Text.Lossy
import RecordCodec.Proofs.Rendering
import RecordCodec.Proofs.Untouched
import RecordCodec.Proofs.Registry.Tables
import RecordCodec.Proofs.Registry.Gaps
import RecordCodec.Proofs.Registry.Typed
import RecordCodec.Proofs.Binary.Traces
import RecordCodec.Proofs.Counts
import RecordCodec.Proofs.Sink.Uses
import RecordCodec.Proofs.Sink.Reuse
