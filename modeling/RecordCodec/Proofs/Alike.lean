import RecordCodec.Itinerary

/-!
# Records of one form

`Record.alike` is what a decoder needs to know of the record that it fills: the fields that it
visits are those that were written. The items of a sequence are compared with its blank item on one
side only, so to compare two items with each other, `alike` has to be turned round and chained.
-/

namespace RecordCodec

mutual

theorem Field.alike_refl : ∀ {f : Field}, f.isPlain → f.alike f
  | .leaf _ _ _, _ => by simp only [Field.alike, beq_self_eq_true, Bool.and_self]
  | .signed _ _ _, _ => by simp only [Field.alike, beq_self_eq_true, Bool.and_self]
  | .nested _ _, h => by
    rw [Field.alike, beq_self_eq_true, Bool.true_and]
    exact Record.alike_refl h
  | .sequence _ _ _, h => by
    rw [Field.isPlain, Bool.and_eq_true] at h
    rw [Field.alike, beq_self_eq_true, Bool.true_and]
    exact Record.alike_refl h.1

/-- A plain record has its own form. -/
theorem Record.alike_refl : ∀ {r : Record}, r.isPlain → r.alike r
  | .strict _, h => fieldsAlike_refl h

theorem fieldsAlike_refl : ∀ {fs : List Field}, fieldsPlain fs → fieldsAlike fs fs
  | [], _ => rfl
  | f :: fs, h => by
    rw [fieldsPlain, Bool.and_eq_true] at h
    rw [fieldsAlike, Bool.and_eq_true]
    exact ⟨Field.alike_refl h.1, fieldsAlike_refl h.2⟩

end

mutual

theorem Field.alike_symm : ∀ {f g : Field}, f.alike g → g.alike f
  | .leaf name kind v, .leaf name' kind' v', h => by
    simp only [Field.alike, Bool.and_eq_true, beq_iff_eq] at h ⊢
    exact ⟨⟨h.1.1.symm, h.1.2.symm⟩, h.2.symm⟩
  | .signed name w _, .signed name' w' _, h => by
    simp only [Field.alike, Bool.and_eq_true, beq_iff_eq] at h ⊢
    exact ⟨h.1.symm, h.2.symm⟩
  | .nested name body, .nested name' body', h => by
    simp only [Field.alike, Bool.and_eq_true, beq_iff_eq] at h ⊢
    exact ⟨h.1.symm, Record.alike_symm h.2⟩
  | .sequence name _ item, .sequence name' _ item', h => by
    simp only [Field.alike, Bool.and_eq_true, beq_iff_eq] at h ⊢
    exact ⟨h.1.symm, Record.alike_symm h.2⟩

theorem Record.alike_symm : ∀ {r s : Record}, r.alike s → s.alike r
  | .strict fs, .strict gs, h => by
    rw [Record.alike] at h ⊢
    exact fieldsAlike_symm h

theorem fieldsAlike_symm : ∀ {fs gs : List Field}, fieldsAlike fs gs → fieldsAlike gs fs
  | [], [], _ => rfl
  | f :: fs, g :: gs, h => by
    rw [fieldsAlike, Bool.and_eq_true] at h ⊢
    exact ⟨Field.alike_symm h.1, fieldsAlike_symm h.2⟩

end

mutual

theorem Field.alike_trans : ∀ {f g h : Field}, f.alike g → g.alike h → f.alike h
  | .leaf _ _ _, .leaf _ _ _, .leaf _ _ _, hfg, hgh => by
    simp only [Field.alike, Bool.and_eq_true, beq_iff_eq] at hfg hgh ⊢
    exact ⟨⟨hfg.1.1.trans hgh.1.1, hfg.1.2.trans hgh.1.2⟩, hfg.2.trans hgh.2⟩
  | .signed _ _ _, .signed _ _ _, .signed _ _ _, hfg, hgh => by
    simp only [Field.alike, Bool.and_eq_true, beq_iff_eq] at hfg hgh ⊢
    exact ⟨hfg.1.trans hgh.1, hfg.2.trans hgh.2⟩
  | .nested _ _, .nested _ _, .nested _ _, hfg, hgh => by
    simp only [Field.alike, Bool.and_eq_true, beq_iff_eq] at hfg hgh ⊢
    exact ⟨hfg.1.trans hgh.1, Record.alike_trans hfg.2 hgh.2⟩
  | .sequence _ _ _, .sequence _ _ _, .sequence _ _ _, hfg, hgh => by
    simp only [Field.alike, Bool.and_eq_true, beq_iff_eq] at hfg hgh ⊢
    exact ⟨hfg.1.trans hgh.1, Record.alike_trans hfg.2 hgh.2⟩

theorem Record.alike_trans : ∀ {r s u : Record}, r.alike s → s.alike u → r.alike u
  | .strict _, .strict _, .strict _, hrs, hsu => by
    rw [Record.alike] at hrs hsu ⊢
    exact fieldsAlike_trans hrs hsu

theorem fieldsAlike_trans : ∀ {fs gs hs : List Field},
    fieldsAlike fs gs → fieldsAlike gs hs → fieldsAlike fs hs
  | [], [], [], _, _ => rfl
  | f :: fs, g :: gs, h :: hs, hfg, hgh => by
    rw [fieldsAlike, Bool.and_eq_true] at hfg hgh ⊢
    exact ⟨Field.alike_trans hfg.1 hgh.1, fieldsAlike_trans hfg.2 hgh.2⟩

end

/-- Two records that have the form of a third have the form of each other. -/
theorem Record.alike_of_alike {r s u : Record} (hr : r.alike s) (hu : r.alike u) : s.alike u :=
  Record.alike_trans (Record.alike_symm hr) hu

end RecordCodec
