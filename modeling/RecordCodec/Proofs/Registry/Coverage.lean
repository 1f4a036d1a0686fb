import Mathlib.Order.Interval.Finset.Nat
import RecordCodec.Registry.Catalogue

/-!
# Collections have a type for every code of a family

A collection is built only if each family covers its range, and covering is counted: there are as
many registered codes in the range as codes. Counting is enough because no code is registered twice,
which is what a catalogue sees to at each change. So in the end each code of the range has a type,
though nobody ever went through the range.

## Main definitions

* `Catalogue.Coded` — no code is registered twice.
* `Catalogue.codesIn` — the registered codes in a range.

## Main results

* `Catalogue.coded_changeAll` — no sequence of changes registers a code twice.
* `Catalogue.covered_eq_width_iff` — a range has as many registered codes as codes just if each of
  its codes has a type.
* `Collection.find?_isSome` — a code that a family or a type of a collection owns has a type.
-/

namespace RecordCodec

/-! ### Registrations in order -/

theorem perm_insertByCode (r : Registration) (rs : List Registration) :
    (insertByCode r rs).Perm (r :: rs) := by
  induction rs with
  | nil => exact .refl _
  | cons s rs ih =>
    rw [insertByCode]
    by_cases h : r.code < s.code
    · rw [if_pos h]
    · rw [if_neg h]
      exact (ih.cons s).trans (.swap r s rs)

namespace Catalogue

variable {c c' : Catalogue}

/-- No code is registered twice. -/
def Coded (c : Catalogue) : Prop :=
  (c.types.map Registration.code).Nodup

theorem coded_empty (name : String) : (empty name).Coded :=
  List.nodup_nil

theorem find?_eq_none_iff {code : UInt32} :
    c.find? code = none ↔ code ∉ c.types.map Registration.code := by
  rw [find?, List.find?_eq_none, List.mem_map]
  constructor
  · rintro h ⟨r, hr, rfl⟩
    exact h r hr BEq.rfl
  · intro h r hr heq
    exact h ⟨r, hr, eq_of_beq heq⟩

theorem mem_of_find? {code : UInt32} {r : Registration} (h : c.find? code = some r) :
    r ∈ c.types ∧ r.code = code := by
  refine ⟨List.mem_of_find?_eq_some h, ?_⟩
  have hcode := List.find?_some h
  exact eq_of_beq hcode

/-- **What a change may do**: it sets the context, or it adds a type whose code and tag are new, or
it adds a family whose tag is new and whose range is not empty. -/
theorem change_cases {ch : Change} {log : List Event} (h : c.change ch = .ok (c', log)) :
    (∃ context, ch = .context context ∧ c' = c.withContext context) ∨
      (∃ r, ch = .register r ∧ c.find? r.code = none ∧ c.rangeOf r.tag = none ∧
        c' = { c with types := insertByCode r c.types }) ∨
      ∃ f, ch = .declare f ∧ ¬f.range.high < f.range.low ∧ c.rangeOf f.tag = none ∧
        c' = { c with families := c.families ++ [f] } := by
  cases ch with
  | context context =>
    obtain ⟨rfl, -⟩ := Prod.mk.inj (Except.ok.inj h)
    exact .inl ⟨context, rfl, rfl⟩
  | register r =>
    refine .inr (.inl ⟨r, rfl, ?_⟩)
    rw [change, register] at h
    cases hfind : c.find? r.code with
    | some old =>
      rw [hfind] at h
      cases h
    | none =>
      rw [hfind] at h
      cases htag : c.rangeOf r.tag with
      | some range =>
        rw [htag] at h
        cases h
      | none =>
        rw [htag] at h
        obtain ⟨rfl, -⟩ := Prod.mk.inj (Except.ok.inj h)
        exact ⟨rfl, rfl, rfl⟩
  | declare f =>
    refine .inr (.inr ⟨f, rfl, ?_⟩)
    rw [change, declare] at h
    by_cases hempty : f.range.high < f.range.low
    · rw [if_pos hempty] at h
      cases h
    · rw [if_neg hempty] at h
      cases htag : c.rangeOf f.tag with
      | some range =>
        rw [htag] at h
        cases h
      | none =>
        rw [htag] at h
        obtain ⟨rfl, -⟩ := Prod.mk.inj (Except.ok.inj h)
        exact ⟨hempty, rfl, rfl⟩

/-- **One change** registers no code twice. -/
theorem Coded.change (h : c.Coded) {ch : Change} {log : List Event}
    (hc : c.change ch = .ok (c', log)) : c'.Coded := by
  rcases change_cases hc with ⟨context, -, rfl⟩ | ⟨r, -, hfind, -, rfl⟩ | ⟨f, -, -, -, rfl⟩
  · exact h
  · have hperm := (perm_insertByCode r c.types).map Registration.code
    exact hperm.nodup_iff.mpr (List.nodup_cons.mpr ⟨find?_eq_none_iff.mp hfind, h⟩)
  · exact h

/-- **No sequence of changes** registers a code twice, whichever of them are refused. -/
theorem coded_changeAll (h : c.Coded) (chs : List Change) : (c.changeAll chs).2.1.Coded := by
  induction chs generalizing c with
  | nil => exact h
  | cons ch chs ih =>
    rw [changeAll]
    cases hc : c.change ch with
    | error m => exact ih h
    | ok new => exact ih (h.change hc)

/-! ### Ranges that are covered -/

theorem contains_iff {range : CodeRange} {code : UInt32} :
    range.contains code ↔ code.toNat ∈ Finset.Icc range.low.toNat range.high.toNat := by
  rw [CodeRange.contains, Bool.and_eq_true, decide_eq_true_iff, decide_eq_true_iff,
    Finset.mem_Icc, UInt32.le_iff_toNat_le, UInt32.le_iff_toNat_le]

/-- The registered codes in a range. -/
def codesIn (c : Catalogue) (range : CodeRange) : Finset UInt32 :=
  (c.types.map Registration.code).toFinset.filter fun code => range.contains code

theorem mem_codesIn {range : CodeRange} {code : UInt32} :
    code ∈ c.codesIn range ↔ code ∈ c.types.map Registration.code ∧ range.contains code := by
  rw [codesIn, Finset.mem_filter, List.mem_toFinset]

/-- Each registered code is counted once. -/
theorem covered_eq_card (h : c.Coded) (range : CodeRange) :
    c.covered range = (c.codesIn range).card := by
  have hfilter : c.codesIn range =
      ((c.types.map Registration.code).filter fun code => range.contains code).toFinset := by
    ext code
    rw [mem_codesIn, List.mem_toFinset, List.mem_filter]
  rw [hfilter, List.toFinset_card_of_nodup (h.filter _), covered,
    ← List.countP_eq_length_filter, List.countP_map]
  rfl

/-- **Counting is enough**: there are as many registered codes in a range as codes just if all codes
of the range are registered. -/
theorem covered_eq_width_iff (h : c.Coded) {range : CodeRange} (hrange : range.low ≤ range.high) :
    c.covered range = range.width ↔
      ∀ code, range.contains code → code ∈ c.types.map Registration.code := by
  have hle := UInt32.le_iff_toNat_le.mp hrange
  have hwidth : (Finset.Icc range.low.toNat range.high.toNat).card = range.width := by
    rw [Nat.card_Icc, CodeRange.width]
    omega
  have hcard : ((c.codesIn range).image UInt32.toNat).card = c.covered range := by
    rw [Finset.card_image_of_injective _ fun _ _ => UInt32.toNat_inj.mp, covered_eq_card h]
  have hsub : (c.codesIn range).image UInt32.toNat ⊆
      Finset.Icc range.low.toNat range.high.toNat := by
    intro n hn
    obtain ⟨code, hcode, rfl⟩ := Finset.mem_image.mp hn
    exact contains_iff.mp (mem_codesIn.mp hcode).2
  rw [← hcard, ← hwidth]
  constructor
  · intro hsame code hcode
    have hall := Finset.eq_of_subset_of_card_le hsub (Nat.le_of_eq hsame.symm)
    have hmem : code.toNat ∈ (c.codesIn range).image UInt32.toNat := by
      rw [hall]
      exact contains_iff.mp hcode
    obtain ⟨code', hcode', hsame⟩ := Finset.mem_image.mp hmem
    rw [← UInt32.toNat_inj.mp hsame]
    exact (mem_codesIn.mp hcode').1
  · intro hall
    refine congrArg Finset.card (Finset.Subset.antisymm hsub fun n hn => ?_)
    have hbound := (Finset.mem_Icc.mp hn).2
    have hn' : (UInt32.ofNat n).toNat = n :=
      UInt32.toNat_ofNat_of_lt' (Nat.lt_of_le_of_lt hbound range.high.toNat_lt)
    have hcode : range.contains (UInt32.ofNat n) := by
      rw [contains_iff, hn']
      exact hn
    exact Finset.mem_image.mpr ⟨_, mem_codesIn.mpr ⟨hall _ hcode, hcode⟩, hn'⟩

/-- **A range that is covered** has a type for each of its codes. -/
theorem mem_of_covered (h : c.Coded) {range : CodeRange} (hwidth : c.covered range = range.width)
    {code : UInt32} (hcode : range.contains code) : code ∈ c.types.map Registration.code := by
  have hbounds := Finset.mem_Icc.mp (contains_iff.mp hcode)
  have hrange : range.low ≤ range.high :=
    UInt32.le_iff_toNat_le.mpr (Nat.le_trans hbounds.1 hbounds.2)
  exact (covered_eq_width_iff h hrange).mp hwidth code hcode

end Catalogue

/-! ### Collections -/

theorem Catalogue.build_eq_ok {c : Catalogue} {built : Collection} (h : c.build = .ok built) :
    built.catalogue = c := by
  rw [Catalogue.build] at h
  split at h
  · cases h
  · exact congrArg Collection.catalogue (Except.ok.inj h).symm

/-- **A code that is owned has a type**, be it owned by a family or by a type. -/
theorem Collection.find?_isSome (c : Collection) (h : c.catalogue.Coded) {tag : TypeTag}
    {code : UInt32} (howned : (c.catalogue.rangeOf tag).any (·.contains code)) :
    ∃ r, c.catalogue.find? code = some r := by
  refine Option.ne_none_iff_exists'.mp fun hnone => ?_
  rw [Catalogue.find?_eq_none_iff] at hnone
  rw [Catalogue.rangeOf] at howned
  cases htype : c.catalogue.types.find? (·.tag == tag) with
  | some r =>
    -- the code is that of the type itself
    rw [htype, Option.any_some, CodeRange.single, CodeRange.contains, Bool.and_eq_true,
      decide_eq_true_iff, decide_eq_true_iff] at howned
    obtain rfl : code = r.code := UInt32.le_antisymm howned.2 howned.1
    exact hnone (List.mem_map_of_mem (List.mem_of_find?_eq_some htype))
  | none =>
    rw [htype] at howned
    cases hfamily : c.catalogue.families.find? (·.tag == tag) with
    | none =>
      rw [hfamily] at howned
      cases howned
    | some f =>
      rw [hfamily] at howned
      have hgap := List.find?_eq_none.mp c.gap?_eq_none f (List.mem_of_find?_eq_some hfamily)
      rw [bne_iff_ne, not_not] at hgap
      exact hnone (Catalogue.mem_of_covered h hgap howned)

end RecordCodec
