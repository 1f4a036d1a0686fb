import RecordCodec.Act

/-!
# Faithful acts

What every codec's acts have in common, whatever the codec: they leave the settings of a traversal
alone, and their result and the stored error tell the same story. An act that starts without a
stored error and succeeds leaves none; one that fails leaves the error that it failed with.

`Act.Faithful` says this of one act. It passes through `>>=`, so that a codec's acts are faithful by
their shape, one primitive after the other, and no codec has to be run for it.

## Main results

* `Act.Faithful.bind` — two faithful acts in a row are one.
* `Act.Faithful.error_of_ok` — after a success no error is stored.
* `Act.Faithful.error_of_error` — after a failure its error is stored.
-/

namespace RecordCodec

variable {σ α β : Type}

/-- The two states have the same settings. -/
structure SameSettings (t t' : Traversal σ) : Prop where
  direction : t'.direction = t.direction
  context : t'.context = t.context
  options : t'.options = t.options

theorem SameSettings.refl (t : Traversal σ) : SameSettings t t :=
  ⟨rfl, rfl, rfl⟩

theorem SameSettings.trans {t t' t'' : Traversal σ} (h : SameSettings t t')
    (h' : SameSettings t' t'') : SameSettings t t'' :=
  ⟨h'.direction.trans h.direction, h'.context.trans h.context, h'.options.trans h.options⟩

theorem Traversal.check_eq_ok_iff {t : Traversal σ} : t.check = .ok () ↔ t.error = none := by
  rw [Traversal.check]
  cases h : t.error with
  | none => exact iff_of_true rfl rfl
  | some e => constructor <;> rintro ⟨⟩

theorem Traversal.error_of_check {t : Traversal σ} {e : Error} (h : t.check = .error e) :
    t.error = some e := by
  rw [Traversal.check] at h
  cases hstored : t.error with
  | none =>
    rw [hstored] at h
    cases h
  | some stored =>
    rw [hstored] at h
    exact congrArg some (Except.error.inj h)

namespace Act

/-- The act leaves the settings alone, and from a state without an error it succeeds exactly if it
leaves none, and fails with the error that it leaves. -/
structure Faithful (act : Act σ α) : Prop where
  /-- Direction, context and options stay. -/
  settings : ∀ t, SameSettings t (act t).state
  /-- The stored error in the end is the error of the result. -/
  check : ∀ t, t.error = none → (act t).state.check = (act t).result.map fun _ => ()

theorem Faithful.error_of_ok {act : Act σ α} (h : act.Faithful) {t : Traversal σ}
    (ht : t.error = none) {a : α} (ha : (act t).result = .ok a) : (act t).state.error = none := by
  have hcheck := h.check t ht
  rw [ha] at hcheck
  exact Traversal.check_eq_ok_iff.mp hcheck

theorem Faithful.error_of_error {act : Act σ α} (h : act.Faithful) {t : Traversal σ}
    (ht : t.error = none) {e : Error} (he : (act t).result = .error e) :
    (act t).state.error = some e := by
  have hcheck := h.check t ht
  rw [he] at hcheck
  exact Traversal.error_of_check hcheck

/-! ### The primitive acts -/

theorem faithful_pure (a : α) : (pure a : Act σ α).Faithful where
  settings t := .refl t
  check _ ht := Traversal.check_eq_ok_iff.mpr ht

theorem Faithful.bind {act : Act σ α} {next : α → Act σ β} (h : act.Faithful)
    (hnext : ∀ a, (next a).Faithful) : (act >>= next).Faithful where
  settings t := by
    cases ha : (act t).result with
    | error e => rw [bind_of_error ha]; exact h.settings t
    | ok a => rw [bind_of_ok ha]; exact (h.settings t).trans ((hnext a).settings _)
  check t ht := by
    cases ha : (act t).result with
    | error e =>
      have hcheck := h.check t ht
      rw [ha] at hcheck
      rw [bind_of_error ha]
      exact hcheck
    | ok a =>
      rw [bind_of_ok ha]
      exact (hnext a).check _ (h.error_of_ok ht ha)

theorem faithful_check : (check : Act σ Unit).Faithful where
  settings t := .refl t
  check t _ := by
    show t.check = t.check.map fun _ => ()
    cases t.check <;> rfl

theorem faithful_fail (e : Error) : (fail e : Act σ α).Faithful where
  settings t := by
    rw [fail]
    cases t.error <;> exact ⟨rfl, rfl, rfl⟩
  check t ht := by
    rw [fail]
    rw [ht]
    rfl

theorem faithful_report (e : Event) : (report e : Act σ Unit).Faithful where
  settings t := .refl t
  check _ ht := Traversal.check_eq_ok_iff.mpr ht

theorem faithful_store : (store : Act σ σ).Faithful where
  settings t := .refl t
  check _ ht := Traversal.check_eq_ok_iff.mpr ht

theorem faithful_modifyStore (f : σ → σ) : (modifyStore f : Act σ Unit).Faithful where
  settings _ := ⟨rfl, rfl, rfl⟩
  check _ ht := Traversal.check_eq_ok_iff.mpr ht

theorem faithful_require (x : Except Error α) : (require x : Act σ α).Faithful := by
  cases x with
  | ok a => exact faithful_pure a
  | error e => exact faithful_fail e

end Act

end RecordCodec
