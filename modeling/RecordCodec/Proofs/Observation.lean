import RecordCodec.Conversion
import RecordCodec.Proofs.Walk

/-!
# Looking at data

A codec that looks at values gives each of them back. So it gives back a whole record of data, as it
was, though it could have been given another one: a visit is free to change its record, and fields
that watch or recover do change when they are visited. A text dump is such a codec.

Data stays data, on the other hand, in the hands of any codec. Where a record is filled by a decoder
and then looked at, what the decoder left is what remains.

## Main results

* `Record.isData_visit` — a plain record is data after any visit.
* `isData_run` — and after any run.
* `Record.record_dump` — a dump does.
-/

namespace RecordCodec

variable {σ α : Type}

/-! ### Data stays data -/

theorem Visited.value_followedBy (v : Visited σ α) (act : Act σ Unit) :
    (v.followedBy act).value = v.value := by
  rw [followedBy]
  cases v.result <;> rfl

theorem itemsData_visitCopies {item : Traversal σ → Visited σ Record}
    (h : ∀ t, (item t).value.isData) (n : Nat) (t : Traversal σ) :
    itemsData (visitCopies item n t).value := by
  induction n generalizing t with
  | zero => rfl
  | succ n ih =>
    rw [visitCopies]
    cases (item t).result with
    | error e => rfl
    | ok u =>
      rw [itemsData, Bool.and_eq_true]
      exact ⟨h t, ih _⟩

variable [Codec σ]

theorem value_visitNested {P : Record → Prop} {fields : Traversal σ → Visited σ Record}
    {r : Record} (hr : P r) (t : Traversal σ) (h : P (fields t).value) :
    P (visitNested fields r t).value := by
  rw [visitNested]
  cases t.error with
  | some e => exact hr
  | none =>
    rw [Visited.value_followedBy]
    exact h

theorem itemsData_decodeItems {item : Traversal σ → Visited σ Record}
    (h : ∀ t, (item t).value.isData) (count : Nat) (t : Traversal σ) :
    itemsData (decodeItems item count t).value := by
  rw [decodeItems]
  cases shortage count t with
  | some left => rfl
  | none => exact itemsData_visitCopies h count t

mutual

theorem Field.isData_visit : ∀ {f : Field}, f.isPlain → ∀ t : Traversal σ,
    (f.visit t).value.isData
  | .leaf _ _ _, _, _ => rfl
  | .signed _ _ _, _, _ => rfl
  | .nested _ body, h, t =>
    value_visitNested (P := fun r => r.isData) (r := body) (Record.isData_of_isPlain h) t
      (Record.isData_visit h t)
  | .sequence name items item, h, t => by
    rw [Field.isPlain, Bool.and_eq_true] at h
    have hitem := fun u : Traversal σ => value_visitNested (P := fun r => r.isData)
      (Record.isData_of_isPlain h.1) u (Record.isData_visit h.1 u)
    rw [Field.visit]
    cases (visitLeaf .u32 name (UInt32.ofNat items.length) t).result with
    | error e => exact itemsData_of_itemsPlain h.2
    | ok u =>
      cases (visitLeaf .u32 name (UInt32.ofNat items.length) t).state.direction with
      | decode => exact itemsData_decodeItems hitem _ _
      | encode | inspect => exact itemsData_visitItems h.2 _

/-- **A plain record is data after any visit**, by whatever codec. -/
theorem Record.isData_visit : ∀ {r : Record}, r.isPlain → ∀ t : Traversal σ,
    (r.visit t).value.isData
  | .strict _, h, t => fieldsData_visitFields h t

theorem fieldsData_visitFields : ∀ {fs : List Field}, fieldsPlain fs → ∀ t : Traversal σ,
    fieldsData (visitFields fs t).value
  | [], _, _ => rfl
  | f :: fs, h, t => by
    rw [fieldsPlain, Bool.and_eq_true] at h
    have hfirst := Field.isData_visit h.1 t
    rw [visitFields]
    cases (f.visit t).result with
    | error e =>
      rw [fieldsData, Bool.and_eq_true]
      exact ⟨hfirst, fieldsData_of_fieldsPlain h.2⟩
    | ok u =>
      rw [fieldsData, Bool.and_eq_true]
      exact ⟨hfirst, fieldsData_visitFields h.2 _⟩

theorem itemsData_visitItems : ∀ {rs : List Record} {item : Record}, itemsPlain item rs →
    ∀ t : Traversal σ, itemsData (visitItems rs t).value
  | [], _, _, _ => rfl
  | r :: rs, item, h, t => by
    rw [itemsPlain, Bool.and_eq_true, Bool.and_eq_true] at h
    have hfirst := value_visitNested (P := fun r => r.isData)
      (Record.isData_of_isPlain h.1.1) t (Record.isData_visit h.1.1 t)
    rw [visitItems]
    cases (visitNested r.visit r t).result with
    | error e =>
      rw [itemsData, Bool.and_eq_true]
      exact ⟨hfirst, itemsData_of_itemsPlain h.2⟩
    | ok u =>
      rw [itemsData, Bool.and_eq_true]
      exact ⟨hfirst, itemsData_visitItems h.2 _⟩

end

/-! ### Runs -/

/-- What a run leaves of its record is what the visit leaves, or the record as it was. -/
theorem run_value {P : Record → Prop} {r : Record} (hr : P r) {t : Traversal σ}
    (h : t.error = none → ((Codec.openRun : Act σ Unit) t).result = .ok () →
      P (r.visit ((Codec.openRun : Act σ Unit) t).state).value) : P (run r t).value := by
  cases ht : t.error with
  | some e =>
    rw [run_of_error ht]
    exact hr
  | none =>
    cases hopen : ((Codec.openRun : Act σ Unit) t).result with
    | error e =>
      rw [(run_of_unopened ht hopen r).2.1]
      exact hr
    | ok u =>
      rw [(run_of_opened ht hopen r).2.1]
      exact h ht hopen

/-- **A plain record is data after any run.** -/
theorem isData_run {r : Record} (hr : r.isPlain) (t : Traversal σ) :
    (run r t).value.isData :=
  run_value (P := fun r => r.isData) (Record.isData_of_isPlain hr) fun _ _ =>
    Record.isData_visit hr _

/-! ### Dumps -/

namespace Dump

theorem faithful_put (kind : Kind) (name : String) (v : kind.Value) : (put kind name v).Faithful :=
  Act.faithful_check.bind fun _ =>
    Act.Faithful.bind ⟨.refl, fun _ ht => Traversal.check_eq_ok_iff.mpr ht⟩ fun _ =>
      Act.faithful_modifyStore _

instance : Codec.Observing Dump :=
  .of_acts (fun _ _ _ => rfl) faithful_put (Act.faithful_pure ())

end Dump

/-- **A dump of data** leaves it alone. -/
theorem Record.record_dump {r : Record} (hr : r.isData) (options : Mask) :
    (r.dump options).record = r := by
  let opened := ((Codec.openRun : Act Dump Unit) (Dump.start .storage options)).state
  refine run_value (P := fun s => s = r) rfl fun _ _ => ?_
  exact congrArg Visited.value (Record.visit_eq_walk hr (t := opened) rfl nofun)

end RecordCodec
