import RecordCodec.Proofs.Binary.Form
import RecordCodec.Proofs.Walk

/-!
# Codecs that only take bytes in

A sizer and a summer write nothing. Each of their acts takes some bytes into a memory, which keeps a
number of them. It does not matter how the bytes were cut: to take one byte string after another is
to take both in one. That is all that the two have in common with each other, and with the encoder's
sink, and it is enough to go from leaves to records.

Such a codec does not refuse a block because of what is in it, but only for its length.

## Main definitions

* `TakesBytes` — a memory that byte strings act on.
* `Act.Takes` — the act succeeds, and takes these bytes in.
* `Leaf.isMeasurable` — the value is short enough for its length field.
* `Measures` — a codec that takes leaves in as their binary forms.

## Main results

* `Act.Takes.seq` — two acts in a row.
* `Measures.visit_record` — a record is taken in as its binary form.
-/

namespace RecordCodec

/-! ### Measurable records -/

/-- The value has a length that fits its length field, if it has one. -/
def Kind.isMeasurable : (k : Kind) → k.Value → Bool
  | .block flags, b => meets flags BlockFlags.terminated || b.length < UInt32.size
  | .text, s => (utf8 s).length < UInt32.size
  | _, _ => true

/-- The leaf has a length that fits its length field, if it has one. -/
def Leaf.isMeasurable (l : Leaf) : Bool :=
  l.kind.isMeasurable l.value

theorem Leaf.isMeasurable_of_isEncodable {l : Leaf} (h : l.isEncodable) : l.isMeasurable := by
  obtain ⟨name, kind, v⟩ := l
  cases kind with
  | u32 | u16 | u8 | bool | fixed => rfl
  | block flags =>
    simp only [Leaf.isEncodable, Kind.isEncodable] at h
    simp only [Leaf.isMeasurable, Kind.isMeasurable]
    by_cases hterm : meets flags BlockFlags.terminated
    · rw [hterm, Bool.true_or]
    · rw [if_neg hterm] at h
      rw [h, Bool.or_true]
  | text => exact h

theorem LeavesFit.measurable {ss : List Stop} (h : LeavesFit Leaf.isEncodable ss) :
    LeavesFit Leaf.isMeasurable ss :=
  fun l hl => Leaf.isMeasurable_of_isEncodable (h l hl)

/-! ### Acts that take bytes in -/

/-- A memory that takes byte strings in, however they are cut. -/
class TakesBytes (σ : Type) where
  take : Bytes → σ → σ
  take_nil : ∀ m, take [] m = m
  take_append : ∀ data more m, take (data ++ more) m = take more (take data m)

open TakesBytes

variable {σ : Type} [TakesBytes σ]

namespace Act

/-- From a state without an error, the act succeeds, and takes `data` in. -/
def Takes (act : Act σ Unit) (data : Bytes) : Prop :=
  ∀ t : Traversal σ, t.error = none →
    ∃ log, act t = ⟨.ok (), { t with store := take data t.store }, log⟩

/-- An act that leaves the state alone takes in no bytes. -/
theorem Takes.of_still {act : Act σ Unit}
    (h : ∀ t, t.error = none → ∃ log, act t = ⟨.ok (), t, log⟩) : act.Takes [] := by
  intro t ht
  obtain ⟨log, hact⟩ := h t ht
  refine ⟨log, ?_⟩
  rw [hact, take_nil]

theorem takes_pure : (pure () : Act σ Unit).Takes [] :=
  .of_still fun _ _ => ⟨[], rfl⟩

theorem takes_check : (check : Act σ Unit).Takes [] :=
  .of_still fun t ht => ⟨[], by rw [check, Traversal.check_eq_ok_iff.mpr ht]⟩

theorem takes_report (e : Event) : (report e : Act σ Unit).Takes [] :=
  .of_still fun _ _ => ⟨[e], rfl⟩

/-- Two acts in a row take in the bytes of one, and then the bytes of the other. -/
theorem Takes.seq {act next : Act σ Unit} {data more : Bytes} (h : act.Takes data)
    (h' : next.Takes more) : (act >>= fun _ => next).Takes (data ++ more) := by
  intro t ht
  obtain ⟨log, hact⟩ := h t ht
  obtain ⟨log', hnext⟩ := h' { t with store := take data t.store } ht
  refine ⟨log ++ log', ?_⟩
  rw [bind_of_ok (a := ()) (by rw [hact])]
  simp only [hact, hnext, take_append]

/-- Where a value can be had, an act that needs it. -/
theorem Takes.of_require {α : Type} {x : Except Error α} {a : α} {next : α → Act σ Unit}
    {data : Bytes} (hx : x = .ok a) (h : (next a).Takes data) :
    (require x >>= next).Takes data := by
  subst hx
  exact (pure_bind a next).symm ▸ h

/-- An act that checks, and changes the memory. -/
theorem takes_modify {data : Bytes} {f : σ → σ} (h : ∀ m, f m = take data m) :
    (do check; modifyStore f : Act σ Unit).Takes data := by
  intro t ht
  refine ⟨[], ?_⟩
  have hcheck : t.check = .ok () := Traversal.check_eq_ok_iff.mpr ht
  simp only [bind_apply, check, hcheck, modifyStore, h, List.append_nil]

end Act

/-! ### Walks and records -/

variable [Codec σ]

theorem walk_takes {token : Stop → Bytes} {ss : List Stop}
    (h : ∀ s ∈ ss, (s.perform : Act σ Unit).Takes (token s)) :
    (walk ss : Act σ Unit).Takes (ss.flatMap token) := by
  induction ss with
  | nil => exact Act.takes_pure
  | cons s ss ih =>
    rw [List.flatMap_cons]
    exact (h s List.mem_cons_self).seq (ih fun s' hs' => h s' (List.mem_cons_of_mem s hs'))

/-- A codec that takes each leaf in as its binary form, and nothing else. -/
class Measures (σ : Type) [TakesBytes σ] [Codec σ] : Prop extends Codec.Observing σ where
  stop : ∀ s : Stop, (∀ l, s = .leaf l → l.isMeasurable) →
    (s.perform : Act σ Unit).Takes s.layout

namespace Measures

/-- A codec whose act at a leaf takes its form in, and whose close takes nothing. -/
theorem of_acts [Codec.Observing σ] {act : (k : Kind) → String → k.Value → Act σ Unit}
    (hvisit : ∀ k name v, Codec.visit k name v = act k name v >>= fun _ => pure v)
    (hleaf : ∀ l : Leaf, l.isMeasurable → (act l.kind l.name l.value).Takes l.layout)
    (hclose : (Codec.close : Act σ Unit).Takes []) : Measures σ where
  stop s h := by
    cases s with
    | leaf l =>
      have hboth := (hleaf l (h l rfl)).seq hclose
      rw [List.append_nil] at hboth
      rw [Stop.perform_leaf hvisit]
      exact hboth
    | close => exact hclose

variable [Measures σ] {t : Traversal σ}

theorem walk_stops {ss : List Stop} (h : LeavesFit Leaf.isMeasurable ss) :
    (walk ss : Act σ Unit).Takes (ss.flatMap Stop.layout) :=
  walk_takes fun s hs => Measures.stop s fun _ => h.of_mem hs

/-- **A field is taken in** as the forms of its leaves. -/
theorem visit_field {f : Field} (hf : f.isData) (hfit : LeavesFit Leaf.isMeasurable f.stops)
    (ht : t.error = none) (hdir : t.direction ≠ .decode) :
    ∃ log, f.visit t = ⟨.ok (), f, { t with store := take f.layout t.store }, log⟩ := by
  obtain ⟨log, hwalk⟩ := walk_stops hfit t ht
  refine ⟨log, ?_⟩
  rw [Field.visit_eq_walk hf ht hdir, Visited.ofAct, hwalk, Field.layout]

/-- **A record is taken in** as its binary form. -/
theorem visit_record {r : Record} (hr : r.isData) (hfit : LeavesFit Leaf.isMeasurable r.stops)
    (ht : t.error = none) (hdir : t.direction ≠ .decode) :
    ∃ log, r.visit t = ⟨.ok (), r, { t with store := take r.layout t.store }, log⟩ := by
  obtain ⟨log, hwalk⟩ := walk_stops hfit t ht
  refine ⟨log, ?_⟩
  rw [Record.visit_eq_walk hr ht hdir, Visited.ofAct, hwalk, r.layout_eq_flatMap]

end Measures

end RecordCodec
