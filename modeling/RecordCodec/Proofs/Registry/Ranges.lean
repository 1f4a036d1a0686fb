import RecordCodec.Proofs.Registry.Coverage

/-!
# Types and families share their tags

A tag has one range, that of its type or that of its family, and a code has one type. A catalogue
refuses what would give a tag or a code a second one, and it refuses nothing else but a family
without codes. This is one condition on the types and families that a catalogue has together
(`Compatible`), and a change is accepted just if it leaves the catalogue with it.

The condition does not depend on any order. The order of the types in a catalogue is that of their
codes, and with different codes this leaves no choice.

## Main definitions

* `Compatible` — types and families that can be in one catalogue.
* `Catalogue.Sound` — the types of a catalogue are in order, and compatible with its families.

## Main results

* `Catalogue.register_iff`, `Catalogue.declare_iff` — when a change is accepted.
* `Catalogue.sound_changeAll` — catalogues are sound at all times.
* `Catalogue.Sound.rangeOf_type`, `Catalogue.Sound.rangeOf_family` — the range of each tag.
-/

namespace RecordCodec

/-- Types and families that can be in one catalogue: no code has two types, no tag has two ranges,
and no family is without codes. -/
structure Compatible (types : List Registration) (families : List Family) : Prop where
  codes : (types.map Registration.code).Nodup
  tags : (types.map Registration.tag ++ families.map Family.tag).Nodup
  ranges : ∀ f ∈ families, f.range.low ≤ f.range.high

namespace Compatible

variable {types types' : List Registration} {families families' : List Family}

theorem nil : Compatible [] [] where
  codes := List.nodup_nil
  tags := List.nodup_nil
  ranges := nofun

theorem sublist (h : Compatible types families) (htypes : types'.Sublist types)
    (hfamilies : families'.Sublist families) : Compatible types' families' where
  codes := h.codes.sublist (htypes.map _)
  tags := h.tags.sublist ((htypes.map _).append (hfamilies.map _))
  ranges f hf := h.ranges f (hfamilies.mem hf)

/-- In which order types and families come does not matter. -/
theorem perm (h : Compatible types families) (htypes : types.Perm types')
    (hfamilies : families.Perm families') : Compatible types' families' where
  codes := h.codes.perm (htypes.map _)
  tags := h.tags.perm ((htypes.map _).append (hfamilies.map _))
  ranges f hf := h.ranges f (hfamilies.mem_iff.mpr hf)

theorem cons_iff {r : Registration} :
    Compatible (r :: types) families ↔
      Compatible types families ∧ r.code ∉ types.map Registration.code ∧
        r.tag ∉ types.map Registration.tag ++ families.map Family.tag := by
  constructor
  · intro h
    exact ⟨h.sublist (List.sublist_cons_self r types) (.refl families),
      (List.nodup_cons.mp h.codes).1, (List.nodup_cons.mp h.tags).1⟩
  · rintro ⟨h, hcode, htag⟩
    exact ⟨List.nodup_cons.mpr ⟨hcode, h.codes⟩, List.nodup_cons.mpr ⟨htag, h.tags⟩, h.ranges⟩

theorem snoc_iff {f : Family} :
    Compatible types (families ++ [f]) ↔
      Compatible types families ∧ ¬f.range.high < f.range.low ∧
        f.tag ∉ types.map Registration.tag ++ families.map Family.tag := by
  have htags : types.map Registration.tag ++ (families ++ [f]).map Family.tag =
      (types.map Registration.tag ++ families.map Family.tag) ++ [f.tag] := by
    rw [List.map_append, List.append_assoc]
    rfl
  rw [UInt32.not_lt]
  constructor
  · intro h
    have hnodup := h.tags
    rw [htags, List.nodup_append_comm] at hnodup
    exact ⟨h.sublist (.refl types) (List.sublist_append_left families [f]),
      h.ranges f (List.mem_append_right families (List.mem_singleton_self f)),
      (List.nodup_cons.mp hnodup).1⟩
  · rintro ⟨h, hrange, htag⟩
    refine ⟨h.codes, ?_, ?_⟩
    · rw [htags, List.nodup_append_comm]
      exact List.nodup_cons.mpr ⟨htag, h.tags⟩
    · intro g hg
      rcases List.mem_append.mp hg with hg | hg
      · exact h.ranges g hg
      · rw [List.mem_singleton.mp hg]
        exact hrange

end Compatible

/-! ### Types in order -/

/-- Each type has a higher code than the one before. -/
def Ascending (types : List Registration) : Prop :=
  types.Pairwise fun r s => r.code < s.code

theorem ascending_insertByCode {r : Registration} {rs : List Registration} (h : Ascending rs)
    (hnew : r.code ∉ rs.map Registration.code) : Ascending (insertByCode r rs) := by
  induction rs with
  | nil => exact List.pairwise_singleton _ r
  | cons s rs ih =>
    obtain ⟨hs, hrs⟩ := List.pairwise_cons.mp h
    rw [List.map_cons, List.mem_cons, not_or] at hnew
    rw [insertByCode]
    by_cases hless : r.code < s.code
    · rw [if_pos hless]
      refine List.pairwise_cons.mpr ⟨fun q hq => ?_, h⟩
      rcases List.mem_cons.mp hq with rfl | hq
      · exact hless
      · exact UInt32.lt_trans hless (hs q hq)
    · rw [if_neg hless]
      refine List.pairwise_cons.mpr ⟨fun q hq => ?_, ih hrs hnew.2⟩
      rcases List.mem_cons.mp ((perm_insertByCode r rs).mem_iff.mp hq) with rfl | hq
      · exact UInt32.lt_of_le_of_ne (UInt32.not_lt.mp hless) (Ne.symm hnew.1)
      · exact hs q hq

/-- **One order**: the same types are in ascending order in one way only. -/
theorem Ascending.eq_of_perm {rs ss : List Registration} (hr : Ascending rs) (hs : Ascending ss)
    (hperm : rs.Perm ss) : rs = ss :=
  hperm.eq_of_pairwise (fun _ _ _ _ hab hba => absurd hba (UInt32.lt_asymm hab)) hr hs

namespace Catalogue

variable {c c' : Catalogue}

/-! ### Changes that are accepted -/

theorem rangeOf_eq_none_iff {tag : TypeTag} :
    c.rangeOf tag = none ↔ tag ∉ c.types.map Registration.tag ++ c.families.map Family.tag := by
  have hkey {α : Type} (key : α → TypeTag) (l : List α) :
      l.find? (key · == tag) = none ↔ tag ∉ l.map key := by
    simp only [List.find?_eq_none, List.mem_map, beq_iff_eq, not_exists, not_and]
  rw [List.mem_append, not_or, ← hkey, ← hkey, rangeOf]
  cases c.types.find? (·.tag == tag) with
  | some r => exact iff_of_false nofun nofun
  | none => exact Option.map_eq_none_iff.trans (and_iff_right rfl).symm

/-- The types and families of a catalogue do not collide. -/
abbrev IsCompatible (c : Catalogue) : Prop :=
  Compatible c.types c.families

/-- **A type is accepted** just if it collides with nothing that is there. -/
theorem register_iff (h : c.IsCompatible) {r : Registration} :
    (∃ log, c.change (.register r) = .ok (c', log)) ↔
      Compatible (r :: c.types) c.families ∧ c' = { c with types := insertByCode r c.types } := by
  rw [Compatible.cons_iff, and_iff_right h, ← rangeOf_eq_none_iff, ← find?_eq_none_iff]
  constructor
  · rintro ⟨log, hchange⟩
    rcases change_cases hchange with ⟨_, ⟨⟩, _⟩ | ⟨_, ⟨⟩, hfind, htag, hc⟩ | ⟨_, ⟨⟩, _⟩
    exact ⟨⟨hfind, htag⟩, hc⟩
  · rintro ⟨⟨hfind, htag⟩, rfl⟩
    refine ⟨[.registered c.name r.code r.name], ?_⟩
    rw [change, register, hfind, htag]
    rfl

/-- **A family is accepted** just if it has codes and collides with nothing that is there. -/
theorem declare_iff (h : c.IsCompatible) {f : Family} :
    (∃ log, c.change (.declare f) = .ok (c', log)) ↔
      Compatible c.types (c.families ++ [f]) ∧ c' = { c with families := c.families ++ [f] } := by
  rw [Compatible.snoc_iff, and_iff_right h, ← rangeOf_eq_none_iff]
  constructor
  · rintro ⟨log, hchange⟩
    rcases change_cases hchange with ⟨_, ⟨⟩, _⟩ | ⟨_, ⟨⟩, _⟩ | ⟨_, ⟨⟩, hrange, htag, hc⟩
    exact ⟨⟨hrange, htag⟩, hc⟩
  · rintro ⟨⟨hrange, htag⟩, rfl⟩
    refine ⟨[.declared c.name f.tag.typeName f.range.low f.range.high], ?_⟩
    rw [change, declare, if_neg hrange, htag]
    rfl

theorem isCompatible_insert {r : Registration} (h : Compatible (r :: c.types) c.families) :
    IsCompatible { c with types := insertByCode r c.types } :=
  h.perm (perm_insertByCode r c.types).symm (.refl c.families)

/-! ### Catalogues that are sound -/

/-- The types are in ascending order, and collide with each other and the families nowhere. -/
structure Sound (c : Catalogue) : Prop where
  ascending : Ascending c.types
  compatible : c.IsCompatible

theorem sound_empty (name : String) : (empty name).Sound where
  ascending := .nil
  compatible := .nil

theorem Sound.withContext (h : c.Sound) (context : Context) : (c.withContext context).Sound where
  ascending := h.ascending
  compatible := h.compatible

theorem Sound.insert (h : c.Sound) {r : Registration}
    (hr : Compatible (r :: c.types) c.families) :
    Sound { c with types := insertByCode r c.types } where
  ascending := ascending_insertByCode h.ascending (Compatible.cons_iff.mp hr).2.1
  compatible := isCompatible_insert hr

/-- **One change** keeps a catalogue sound. -/
theorem Sound.change (h : c.Sound) {ch : Change} {log : List Event}
    (hc : c.change ch = .ok (c', log)) : c'.Sound := by
  cases ch with
  | context context =>
    obtain ⟨rfl, -⟩ := Prod.mk.inj (Except.ok.inj hc)
    exact h.withContext context
  | register r =>
    obtain ⟨hr, rfl⟩ := (register_iff h.compatible).mp ⟨log, hc⟩
    exact h.insert hr
  | declare f =>
    obtain ⟨hf, rfl⟩ := (declare_iff h.compatible).mp ⟨log, hc⟩
    exact ⟨h.ascending, hf⟩

/-- **Catalogues are sound** after any changes, whichever of them are refused. -/
theorem sound_changeAll (h : c.Sound) (chs : List Change) : (c.changeAll chs).2.1.Sound := by
  induction chs generalizing c with
  | nil => exact h
  | cons ch chs ih =>
    rw [changeAll]
    cases hc : c.change ch with
    | error m => exact ih h
    | ok new => exact ih (h.change hc)

/-! ### Looking up what is there -/

theorem find?_key {α κ : Type} [BEq κ] [LawfulBEq κ] {key : α → κ} {l : List α} {x : α}
    (h : (l.map key).Nodup) (hx : x ∈ l) : l.find? (key · == key x) = some x := by
  obtain ⟨y, hy⟩ := Option.isSome_iff_exists.mp
    (List.find?_isSome (p := (key · == key x)).mpr ⟨x, hx, BEq.rfl⟩)
  have hkey := List.find?_some hy
  rw [hy, List.inj_on_of_nodup_map h (List.mem_of_find?_eq_some hy) hx (eq_of_beq hkey)]

namespace Sound

variable (h : c.Sound)

include h

/-- A code has the type that is registered for it. -/
theorem find?_type {r : Registration} (hr : r ∈ c.types) : c.find? r.code = some r :=
  find?_key h.compatible.codes hr

/-- A type has the range of its code. -/
theorem rangeOf_type {r : Registration} (hr : r ∈ c.types) :
    c.rangeOf r.tag = some (.single r.code) := by
  have hfind : c.types.find? (·.tag == r.tag) = some r :=
    find?_key (List.nodup_append.mp h.compatible.tags).1 hr
  rw [rangeOf, hfind]

/-- A type owns its code. -/
theorem owned_type {r : Registration} (hr : r ∈ c.types) :
    (c.rangeOf r.tag).any (·.contains r.code) := by
  rw [h.rangeOf_type hr, Option.any_some, CodeRange.contains, Bool.and_eq_true,
    decide_eq_true_iff, decide_eq_true_iff]
  exact ⟨UInt32.le_refl _, UInt32.le_refl _⟩

/-- A family has the range that it was declared with. -/
theorem rangeOf_family {f : Family} (hf : f ∈ c.families) : c.rangeOf f.tag = some f.range := by
  obtain ⟨-, hfamilies, hdisjoint⟩ := List.nodup_append.mp h.compatible.tags
  have hnone : c.types.find? (·.tag == f.tag) = none := by
    refine List.find?_eq_none.mpr fun r hr heq => ?_
    exact hdisjoint r.tag (List.mem_map_of_mem hr) f.tag (List.mem_map_of_mem hf) (eq_of_beq heq)
  have hfind : c.families.find? (·.tag == f.tag) = some f := find?_key hfamilies hf
  rw [rangeOf, hnone, hfind]
  rfl

end Sound

end Catalogue

end RecordCodec
