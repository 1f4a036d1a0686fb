import Mathlib.Data.List.Forall2
import RecordCodec.Proofs.Binary.RoundTrip
import RecordCodec.Proofs.Key.Advance

/-!
# The key round trip

Records are written as keys one behind the other, and read back one after another. The border is
the same on both sides, and nothing else is asked of it: it may be empty, it may be a text of
digits, and it may stand in the middle of a field. For a decoder never looks for a border. It knows
from the form of a record where each of its stops ends, and passes over as many bytes as the border
has.

Nor is anything asked of what follows the last token.

## Main definitions

* `Record.isKeyRecoverable` — the record can be read back from its key.

## Main results

* `KeyDecoder.run_record` — a run fills its record with the values of the one that was written.
* `KeyDecoder.runs` — runs in a row do.
* `KeyDecoder.runs_of_tokens` — what a key encoder wrote is read back.
-/

namespace RecordCodec

/-- The record has a key, and can be read back from it: the items of its sequences have the form of
the blank item, and none of them is so slight that its count would look like a lie. -/
def Record.isKeyRecoverable (border : Bytes) (r : Record) : Bool :=
  r.isPlain && r.isKeyable && r.everySequence (substantial (Stop.token border))

theorem Record.isKeyRecoverable_iff {border : Bytes} {r : Record} :
    r.isKeyRecoverable border ↔
      r.isPlain ∧ r.isKeyable ∧ r.everySequence (substantial (Stop.token border)) := by
  rw [isKeyRecoverable, Bool.and_eq_true, Bool.and_eq_true, and_assoc]

namespace KeyDecoder

/-- The decoder is in order, and passes over as many bytes as the border has. -/
structure Ready (border : Bytes) (t : Traversal KeyDecoder) : Prop where
  clean : t.error = none
  decodes : t.direction = .decode
  length : border.length = t.store.borderLength

theorem ready_start (border : Option String) (buffer : Bytes) :
    Ready (borderBytes border) (start border buffer) :=
  ⟨rfl, rfl, rfl⟩

variable {o t : Traversal KeyDecoder} {border rest : Bytes}

/-- **A run** fills its record with the values of the one that was written. -/
theorem run_record {r s : Record} (ho : Ready border o) (hr : r.isKeyRecoverable border)
    (hs : r.alike s) (ht : Reading o (r.token border ++ rest) t) :
    ∃ t' log, run s t = ⟨.ok (), r.deliver s, t', log⟩ ∧ Reading o rest t' := by
  obtain ⟨hplain, hkeyable, hsub⟩ := Record.isKeyRecoverable_iff.mp hr
  obtain ⟨-, hleaves, hfew⟩ := Record.isSerial_iff.mp hkeyable
  have law := recovers ho.clean ho.decodes ho.length
  obtain ⟨t', hvisit, ht'⟩ := law.visit_record hplain hs hleaves hfew hsub rest t ht
  exact ⟨t', _, run_of_visit (law.clean ht) rfl hvisit rfl (law.clean ht'), ht'⟩

/-- **Runs in a row** leave what follows the tokens of their records. -/
theorem runs {rs ss : List Record} (ho : Ready border o)
    (hrs : ∀ r ∈ rs, r.isKeyRecoverable border)
    (hss : List.Forall₂ (fun r s => r.alike s) rs ss)
    (ht : Reading o (rs.flatMap (Record.token border) ++ rest) t) :
    ∃ t' log, performAll (ss.map .run) t = (Decoder.deliveries rs ss, t', log) ∧
      Reading o rest t' := by
  induction hss generalizing t with
  | nil => exact ⟨t, [], rfl, ht⟩
  | @cons r s rs ss hs hss ih =>
    rw [List.flatMap_cons, List.append_assoc] at ht
    obtain ⟨u, log, hrun, hu⟩ := run_record ho (hrs r List.mem_cons_self) hs ht
    obtain ⟨t', log', hruns, ht'⟩ := ih (fun r' hr' => hrs r' (List.mem_cons_of_mem r hr')) hu
    exact ⟨t', log ++ log', performAll_run_cons hrun hruns, ht'⟩

/-- **The round trip.** Records that are written as keys in a row, into a sink that only memory
limits, are read back in a row by a decoder with the same border: every run succeeds, each record
gets the values of the one that was written, and the decoder ends where the tokens do, whatever
follows them. -/
theorem runs_of_tokens (border : Option String) (rs ss : List Record) (rest : Bytes)
    (hrs : ∀ r ∈ rs, r.isKeyRecoverable (borderBytes border))
    (hss : List.Forall₂ (fun r s => r.alike s) rs ss)
    (hroom : (rs.flatMap (Record.token (borderBytes border))).length ≤ maxLength) :
    let written := performAll (rs.map .run) (KeyEncoder.start border (Sink.empty none))
    let token := written.2.1.store.sink.committed
    let read := performAll (ss.map .run) (start border (token ++ rest))
    written.1 = rs.map (.ran (.ok ())) ∧
      read.1 = Decoder.deliveries rs ss ∧ read.2.1.store.cursor.offset = token.length := by
  have hkeyable : ∀ r ∈ rs, r.isKeyable := by
    intro r hr
    obtain ⟨-, hkeyable, -⟩ := Record.isKeyRecoverable_iff.mp (hrs r hr)
    exact hkeyable
  obtain ⟨log, hwritten⟩ := KeyEncoder.runs hkeyable
    (t := KeyEncoder.start border (Sink.empty none)) rfl nofun (Sink.reserve_empty_iff.mpr hroom)
  have htoken : (KeyEncoder.extended (rs.flatMap (Record.token (borderBytes border)))
      (KeyEncoder.start border (Sink.empty none))).store.sink.committed =
        rs.flatMap (Record.token (borderBytes border)) := List.nil_append _
  have hstart := reading_self
    (start border (rs.flatMap (Record.token (borderBytes border)) ++ rest))
  have hahead : (start border (rs.flatMap (Record.token (borderBytes border)) ++
      rest)).store.cursor.rest = rs.flatMap (Record.token (borderBytes border)) ++ rest :=
    (Cursor.whole_ofBytes _).rest_eq
  obtain ⟨t', log', hread, ht'⟩ := runs (ready_start border _) hrs hss (hahead ▸ hstart)
  have hwithin := performAll_keeps keeps_within (ss.map .run)
    (within_start border (rs.flatMap (Record.token (borderBytes border)) ++ rest))
  rw [hread] at hwithin
  have hrest : t'.store.cursor.rest = rest := by
    obtain ⟨-, -, hrest⟩ := ht'
    exact hrest
  have hborder : (KeyEncoder.start border (Sink.empty none)).store.border = borderBytes border :=
    rfl
  rw [hborder] at hwritten
  simp only [hwritten, htoken, hread]
  exact ⟨trivial, trivial, hwithin.offset_of_rest hrest⟩

/-- A border of digits, with a field behind the token that looks like more of it. -/
theorem runs_of_tokens_digits :
    let rs := [Record.specimen, Record.specimen]
    let ss := [Record.specimen.blank, Record.specimen]
    let rest : Bytes := [48, 48]
    let written := performAll (rs.map .run) (KeyEncoder.start (some "00") (Sink.empty none))
    let token := written.2.1.store.sink.committed
    let read := performAll (ss.map .run) (start (some "00") (token ++ rest))
    written.1 = rs.map (.ran (.ok ())) ∧
      read.1 = Decoder.deliveries rs ss ∧ read.2.1.store.cursor.offset = token.length :=
  runs_of_tokens (some "00") [Record.specimen, Record.specimen]
    [Record.specimen.blank, Record.specimen] [48, 48] (by decide)
    (.cons (by decide) (.cons (by decide) .nil)) (by decide +kernel)

end KeyDecoder

end RecordCodec
