import RecordCodec.Proofs.Registry.Ranges

/-!
# Which catalogues are rejected

A catalogue with a family that owns a code without a type is not fit for use. To see whether it has
one, nobody goes through the codes of a range, which can be all codes there are: the registered
codes of the range are counted and compared with its width. That comes to the same, because no
code is registered twice and no family is without codes.

The rejection names the first such family, with two numbers that differ: how many codes of its range
are registered, and how many there are. The second is computed in 64 bits, and does not wrap around
even for the range of all codes.

## Main definitions

* `Catalogue.Lacks` — some code of a range has no type.
* `CodeRange.width64` — the number of codes in a range, in 64-bit arithmetic.

## Main results

* `CodeRange.toNat_width64` — 64 bits are enough.
* `Catalogue.gap?_eq_some_iff` — the gap that is found is the first.
* `Catalogue.build_rejects_gaps` — what is rejected, for what reason, and what is not.
-/

namespace RecordCodec

namespace CodeRange

/-- The number of codes in a range that is not empty, in 64-bit arithmetic. -/
def width64 (r : CodeRange) : UInt64 :=
  r.high.toUInt64 - r.low.toUInt64 + 1

variable {r : CodeRange}

/-- The width of a range is one more than the distance of its ends. -/
theorem width_eq (h : r.low ≤ r.high) :
    (r.width : Int) = r.high.toNat - r.low.toNat + 1 := by
  have hle := UInt32.le_iff_toNat_le.mp h
  rw [width]
  omega

/-- **64 bits are enough** for the width of any range. -/
theorem toNat_width64 (h : r.low ≤ r.high) : r.width64.toNat = r.width := by
  have hle : r.low.toUInt64 ≤ r.high.toUInt64 := by
    rw [UInt64.le_iff_toNat_le, UInt32.toNat_toUInt64, UInt32.toNat_toUInt64]
    exact UInt32.le_iff_toNat_le.mp h
  have hhigh := r.high.toNat_lt
  rw [width64, UInt64.toNat_add, UInt64.toNat_sub_of_le _ _ hle, UInt32.toNat_toUInt64,
    UInt32.toNat_toUInt64, width]
  exact Nat.mod_eq_of_lt (by simp only [UInt64.toNat_one]; omega)

example : width64 ⟨0, 4294967295⟩ = 4294967296 := by decide

end CodeRange

namespace Catalogue

variable {c : Catalogue} {f : Family}

/-- Some code of the range has no type. -/
def Lacks (c : Catalogue) (range : CodeRange) : Prop :=
  ∃ code, range.contains code ∧ c.find? code = none

/-- A range with codes is not covered just if it lacks a type. -/
theorem Coded.covered_ne_width_iff (h : c.Coded) {range : CodeRange}
    (hrange : range.low ≤ range.high) : c.covered range ≠ range.width ↔ c.Lacks range := by
  rw [ne_eq, covered_eq_width_iff h hrange, Lacks]
  simp only [not_forall, find?_eq_none_iff, exists_prop]

namespace Sound

variable (h : c.Sound)

include h

theorem uncovered_iff (hf : f ∈ c.families) :
    (c.covered f.range != f.range.width) = true ↔ c.Lacks f.range := by
  rw [bne_iff_ne]
  exact Coded.covered_ne_width_iff h.compatible.codes (h.compatible.ranges f hf)

/-- **The gap that is found** is that of the first family that lacks a type. -/
theorem gap?_eq_some_iff :
    c.gap? = some f ↔ ∃ before after, c.families = before ++ f :: after ∧
      (∀ g ∈ before, ¬c.Lacks g.range) ∧ c.Lacks f.range := by
  rw [gap?, List.find?_eq_some_iff_append]
  constructor
  · rintro ⟨hf, before, after, hsplit, hbefore⟩
    have hmem : ∀ g ∈ before ++ f :: after, g ∈ c.families := fun g hg => hsplit ▸ hg
    refine ⟨before, after, hsplit, fun g hg hlacks => ?_,
      (h.uncovered_iff (hmem f (by simp))).mp hf⟩
    have hcovered := hbefore g hg
    rw [(h.uncovered_iff (hmem g (List.mem_append_left _ hg))).mpr hlacks] at hcovered
    cases hcovered
  · rintro ⟨before, after, hsplit, hbefore, hf⟩
    have hmem : ∀ g ∈ before ++ f :: after, g ∈ c.families := fun g hg => hsplit ▸ hg
    refine ⟨(h.uncovered_iff (hmem f (by simp))).mpr hf, before, after, hsplit, fun g hg => ?_⟩
    have hcovered := mt (h.uncovered_iff (hmem g (List.mem_append_left _ hg))).mp (hbefore g hg)
    rw [eq_false_of_ne_true hcovered]
    rfl

/-- No gap is found just if no family lacks a type. -/
theorem gap?_eq_none_iff : c.gap? = none ↔ ∀ f ∈ c.families, ¬c.Lacks f.range := by
  rw [gap?, List.find?_eq_none]
  exact forall₂_congr fun f hf => not_congr (h.uncovered_iff hf)

end Sound

theorem build_of_gap (h : c.gap? = some f) :
    c.build = .error (.gap c.name f.tag.typeName f.range (c.covered f.range)) := by
  rw [build]
  split
  · rename_i g hg
    obtain rfl := Option.some.inj (hg.symm.trans h)
    rfl
  · rename_i hnone
    rw [h] at hnone
    cases hnone

theorem build_of_no_gap (h : c.gap? = none) : c.build = .ok ⟨c, h⟩ := by
  rw [build]
  split
  · rename_i g hg
    rw [h] at hg
    cases hg
  · rfl

theorem build_eq_error_iff {m : Misuse} :
    c.build = .error m ↔ ∃ f, c.gap? = some f ∧
      m = .gap c.name f.tag.typeName f.range (c.covered f.range) := by
  cases hgap : c.gap? with
  | none =>
    rw [build_of_no_gap hgap]
    refine iff_of_false nofun ?_
    rintro ⟨f, hf, -⟩
    cases hf
  | some f =>
    rw [build_of_gap hgap]
    constructor
    · intro h
      exact ⟨f, rfl, (Except.error.inj h).symm⟩
    · rintro ⟨g, hg, rfl⟩
      rw [Option.some.inj hg]

/-- A rejection says how many codes of the range are registered, and how many there are. -/
theorem message_gap {range : CodeRange} (h : range.low ≤ range.high)
    {collection typeName : String} {covered : Nat} :
    (Misuse.gap collection typeName range covered).message =
      s!"{collection}: group {typeName} [{range.low}, {range.high}] covers " ++
        s!"{covered} registered codes, expected {range.width64}" := by
  have hwidth : toString range.width64 = toString range.width :=
    congrArg toString (CodeRange.toNat_width64 h)
  rw [hwidth, Misuse.message]
  simp only [String.append_assoc]
  rfl

/-- **What is rejected**, of all catalogues that changes can lead to: those with a family that lacks
a type for some code of its range. The reason is the first such family, the number of registered
codes in its range, and the number of all codes in it, which is one more than the distance of its
ends. A catalogue that is not rejected becomes a collection as it is. -/
theorem build_rejects_gaps (name : String) (changes : List Change) :
    let c := ((empty name).changeAll changes).2.1
    ((∃ m, c.build = .error m) ↔ ∃ f ∈ c.families, c.Lacks f.range) ∧
      (∀ m, c.build = .error m → ∃ before f after, c.families = before ++ f :: after ∧
        (∀ g ∈ before, ¬c.Lacks g.range) ∧ c.Lacks f.range ∧
        m = .gap c.name f.tag.typeName f.range (c.codesIn f.range).card ∧
        m.message = s!"{c.name}: group {f.tag.typeName} [{f.range.low}, {f.range.high}] covers " ++
          s!"{(c.codesIn f.range).card} registered codes, expected {f.range.width64}") ∧
      (∀ f ∈ c.families,
        (f.range.width64.toNat : Int) = f.range.high.toNat - f.range.low.toNat + 1) ∧
      ∀ built, c.build = .ok built → built.catalogue = c := by
  intro c
  have hc : c.Sound := sound_changeAll (sound_empty name) changes
  have hrange : ∀ f ∈ c.families, f.range.low ≤ f.range.high := hc.compatible.ranges
  refine ⟨?_, fun m hm => ?_, fun f hf => ?_, fun built => build_eq_ok⟩
  · constructor
    · rintro ⟨m, hm⟩
      obtain ⟨f, hgap, -⟩ := build_eq_error_iff.mp hm
      obtain ⟨before, after, -, -, hlacks⟩ := hc.gap?_eq_some_iff.mp hgap
      exact ⟨f, List.mem_of_find?_eq_some hgap, hlacks⟩
    · rintro ⟨f, hf, hlacks⟩
      have hgap : c.gap? ≠ none := fun hnone => hc.gap?_eq_none_iff.mp hnone f hf hlacks
      obtain ⟨g, hg⟩ := Option.ne_none_iff_exists'.mp hgap
      exact ⟨_, build_of_gap hg⟩
  · obtain ⟨f, hgap, rfl⟩ := build_eq_error_iff.mp hm
    obtain ⟨before, after, hsplit, hbefore, hlacks⟩ := hc.gap?_eq_some_iff.mp hgap
    have hmem : f ∈ c.families := List.mem_of_find?_eq_some hgap
    rw [covered_eq_card hc.compatible.codes]
    exact ⟨before, f, after, hsplit, hbefore, hlacks, rfl, message_gap (hrange f hmem)⟩
  · rw [CodeRange.toNat_width64 (hrange f hf), CodeRange.width_eq (hrange f hf)]

end Catalogue

end RecordCodec
