import RecordCodec.Proofs.Registry.Arrangement

/-!
# A catalogue as three tables

Whoever asks a catalogue asks by key: for the type of a code, for the range of a tag, and for the
tags of the families. Each answer could come from a table of its own. A change would look into two
of them and write into two, and a refused change would write nothing.

The tables do not say which tag a code belongs to, nor which ranges are those of types. That they
fit together is an invariant of the changes: no range is without a code or a family, and no code is
without a range.

## Main definitions

* `Tables`, `Tables.changeAll` — the tables, and how changes write into them.
* `Catalogue.tables` — what a catalogue answers, as tables.
* `Catalogue.accepted` — the changes that were not refused.
* `Tables.Consistent` — the tables fit together, and have these families.

## Main results

* `Catalogue.tables_changeAll` — a catalogue answers as the tables do.
* `Tables.Consistent.change`, `Tables.Consistent.changeAll` — the tables fit together at all times.
* `Catalogue.changeAll_accepted` — refused changes leave no trace.
* `Catalogue.ledger` — all of this, after any changes to a new catalogue.
-/

namespace RecordCodec

open Catalogue (Change Misuse)

/-- What is entered under a code: a name, and a blank object or why there is none. -/
def Registration.entry (r : Registration) : String × Except Error Record :=
  (r.name, r.blank)

/-- Answers by key. -/
structure Tables where
  context : Context
  /-- The type of each code. -/
  codes : UInt32 → Option (String × Except Error Record)
  /-- The range of each tag, be it that of a type or that of a family. -/
  ranges : TypeTag → Option CodeRange
  /-- The tags of the families, in order of declaration. -/
  groups : List TypeTag

namespace Tables

/-- Tables without entries. -/
def empty : Tables :=
  ⟨.unknown, fun _ => none, fun _ => none, []⟩

/-- Enters a type under its code, and the range of its tag. -/
def register (collection : String) (t : Tables) (r : Registration) : Except Misuse Tables :=
  match t.codes r.code with
  | some old => .error (.codeTaken collection r.code old.1 r.name)
  | none =>
    if (t.ranges r.tag).isSome then .error (.typeTaken collection r.tag.typeName)
    else
      .ok { t with
        codes := Function.update t.codes r.code (some r.entry)
        ranges := Function.update t.ranges r.tag (some (.single r.code)) }

/-- Enters the range of a family, and puts it on the list. -/
def declare (collection : String) (t : Tables) (f : Family) : Except Misuse Tables :=
  if f.range.high < f.range.low then .error (.emptyRange collection f.range)
  else if (t.ranges f.tag).isSome then .error (.familyTaken collection f.tag.typeName)
  else
    .ok { t with
      ranges := Function.update t.ranges f.tag (some f.range)
      groups := t.groups ++ [f.tag] }

/-- Makes one change. -/
def change (collection : String) (t : Tables) : Change → Except Misuse Tables
  | .context context => .ok { t with context := context }
  | .register r => t.register collection r
  | .declare f => t.declare collection f

/-- Makes changes one after another, and passes over those that are refused. -/
def changeAll (collection : String) (t : Tables) :
    List Change → List (Except Misuse Unit) × Tables
  | [] => ([], t)
  | ch :: chs =>
    match t.change collection ch with
    | .error m =>
      let others := t.changeAll collection chs
      (.error m :: others.1, others.2)
    | .ok t' =>
      let others := t'.changeAll collection chs
      (.ok () :: others.1, others.2)

end Tables

namespace Catalogue

/-! ### A catalogue answers as the tables do -/

/-- What the catalogue answers. -/
def tables (c : Catalogue) : Tables where
  context := c.context
  codes code := (c.find? code).map Registration.entry
  ranges := c.rangeOf
  groups := c.families.map Family.tag

variable {c c' : Catalogue} {r : Registration} {f : Family}

/-- A new type is not found by what it is not. -/
theorem find?_insertByCode_of_neg {p : Registration → Bool} (hr : ¬p r) (rs : List Registration) :
    (insertByCode r rs).find? p = rs.find? p := by
  induction rs with
  | nil => exact List.find?_cons_of_neg hr
  | cons s rs ih =>
    rw [insertByCode]
    by_cases hless : r.code < s.code
    · rw [if_pos hless, List.find?_cons_of_neg hr]
    · rw [if_neg hless, List.find?_cons, List.find?_cons, ih]

/-- A new type is found by what it is and no other type is. -/
theorem find?_insertByCode_of_pos {p : Registration → Bool} (hr : p r) {rs : List Registration}
    (hrs : rs.find? p = none) : (insertByCode r rs).find? p = some r := by
  induction rs with
  | nil => exact List.find?_cons_of_pos hr
  | cons s rs ih =>
    obtain ⟨hs, hrest⟩ := List.forall_mem_cons.mp (List.find?_eq_none.mp hrs)
    rw [insertByCode]
    by_cases hless : r.code < s.code
    · rw [if_pos hless, List.find?_cons_of_pos hr]
    · rw [if_neg hless, List.find?_cons_of_neg hs]
      exact ih (List.find?_eq_none.mpr hrest)

theorem find?_tag_of_rangeOf {tag : TypeTag} (h : c.rangeOf tag = none) :
    c.types.find? (·.tag == tag) = none ∧ c.families.find? (·.tag == tag) = none := by
  rw [rangeOf] at h
  cases htype : c.types.find? (·.tag == tag) with
  | some s =>
    rw [htype] at h
    cases h
  | none =>
    rw [htype] at h
    exact ⟨rfl, Option.map_eq_none_iff.mp h⟩

/-- A new type is entered under its code. -/
theorem find?_insert (hcode : c.find? r.code = none) :
    find? { c with types := insertByCode r c.types } =
      Function.update c.find? r.code (some r) := by
  funext code
  by_cases h : code = r.code
  · subst h
    rw [Function.update_self]
    exact find?_insertByCode_of_pos (p := (·.code == r.code)) BEq.rfl hcode
  · rw [Function.update_of_ne h]
    exact find?_insertByCode_of_neg (p := (·.code == code)) (fun heq => h (eq_of_beq heq).symm)
      c.types

/-- The range of a new type is entered under its tag. -/
theorem rangeOf_insert (htag : c.rangeOf r.tag = none) :
    rangeOf { c with types := insertByCode r c.types } =
      Function.update c.rangeOf r.tag (some (.single r.code)) := by
  funext tag
  by_cases h : tag = r.tag
  · subst h
    have hfind := find?_insertByCode_of_pos (p := (·.tag == r.tag)) BEq.rfl
      (find?_tag_of_rangeOf htag).1
    rw [Function.update_self, rangeOf, hfind]
  · have hfind := find?_insertByCode_of_neg (p := (·.tag == tag))
      (fun heq => h (eq_of_beq heq).symm) c.types
    rw [Function.update_of_ne h, rangeOf, hfind, rangeOf]

/-- The range of a new family is entered under its tag. -/
theorem rangeOf_append (htag : c.rangeOf f.tag = none) :
    rangeOf { c with families := c.families ++ [f] } =
      Function.update c.rangeOf f.tag (some f.range) := by
  funext tag
  by_cases h : tag = f.tag
  · subst h
    obtain ⟨htype, hfamily⟩ := find?_tag_of_rangeOf htag
    have hself : [f].find? (·.tag == f.tag) = some f := List.find?_cons_of_pos BEq.rfl
    have hfind : (c.families ++ [f]).find? (·.tag == f.tag) = some f := by
      rw [List.find?_append, hfamily, Option.none_or, hself]
    rw [Function.update_self, rangeOf, htype, hfind]
    rfl
  · have hother : [f].find? (·.tag == tag) = none :=
      List.find?_cons_of_neg fun heq => h (eq_of_beq heq).symm
    have hfind : (c.families ++ [f]).find? (·.tag == tag) = c.families.find? (·.tag == tag) := by
      rw [List.find?_append, hother, Option.or_none]
    rw [Function.update_of_ne h, rangeOf, hfind, rangeOf]

theorem tables_register (c : Catalogue) (r : Registration) :
    (c.register r).map (fun new => new.1.tables) = c.tables.register c.name r := by
  have hfound : c.tables.codes r.code = (c.find? r.code).map Registration.entry := rfl
  rw [register, Tables.register, hfound]
  cases hcode : c.find? r.code with
  | some old => rfl
  | none =>
    have hranges : c.tables.ranges r.tag = c.rangeOf r.tag := rfl
    rw [hranges, Option.map_none]
    cases htag : c.rangeOf r.tag with
    | some range => rfl
    | none =>
      have hcodes :
          Option.map Registration.entry ∘ find? { c with types := insertByCode r c.types } =
            Function.update c.tables.codes r.code (some r.entry) := by
        rw [find?_insert hcode]
        exact Function.comp_update (Option.map Registration.entry) c.find? r.code (some r)
      exact congrArg Except.ok (congrArg₂ (Tables.mk c.context · · c.tables.groups) hcodes
        (rangeOf_insert htag))

theorem tables_declare (c : Catalogue) (f : Family) :
    (c.declare f).map (fun new => new.1.tables) = c.tables.declare c.name f := by
  have hranges : c.tables.ranges f.tag = c.rangeOf f.tag := rfl
  rw [declare, Tables.declare, hranges]
  by_cases hempty : f.range.high < f.range.low
  · rw [if_pos hempty, if_pos hempty]
    rfl
  · rw [if_neg hempty, if_neg hempty]
    cases htag : c.rangeOf f.tag with
    | some range => rfl
    | none =>
      have hgroups : (c.families ++ [f]).map Family.tag = c.tables.groups ++ [f.tag] :=
        List.map_append
      exact congrArg Except.ok (congrArg₂ (Tables.mk c.context c.tables.codes · ·)
        (rangeOf_append htag) hgroups)

/-- **One change** to a catalogue is the change to its tables, and is refused for the same
reason. -/
theorem tables_change (c : Catalogue) (ch : Change) :
    (c.change ch).map (fun new => new.1.tables) = c.tables.change c.name ch := by
  cases ch with
  | context context => rfl
  | register r =>
    rw [Tables.change, ← tables_register, change]
    cases c.register r <;> rfl
  | declare f =>
    rw [Tables.change, ← tables_declare, change]
    cases c.declare f <;> rfl

theorem name_change {ch : Change} {log : List Event} (h : c.change ch = .ok (c', log)) :
    c'.name = c.name := by
  rcases change_cases h with ⟨context, -, rfl⟩ | ⟨r, -, -, -, rfl⟩ | ⟨f, -, -, -, rfl⟩ <;> rfl

/-- **A catalogue answers as the tables do**, which are changed by themselves. -/
theorem tables_changeAll (c : Catalogue) (chs : List Change) :
    c.tables.changeAll c.name chs = ((c.changeAll chs).1, (c.changeAll chs).2.1.tables) := by
  induction chs generalizing c with
  | nil => rfl
  | cons ch chs ih =>
    rw [Tables.changeAll, changeAll, ← tables_change]
    cases hchange : c.change ch with
    | error m => simp only [Except.map, ih]
    | ok new =>
      have hname : new.1.name = c.name := name_change hchange
      simp only [Except.map, ← hname, ih]

/-! ### Changes that were not refused -/

/-- The changes whose reply is no refusal. -/
def accepted (replies : List (Except Misuse Unit)) (chs : List Change) : List Change :=
  ((replies.zip chs).filter fun answered => answered.1.isOk).map Prod.snd

/-- **Refused changes leave no trace.** The accepted ones alone are accepted too, and lead to the
same catalogue by the same events. -/
theorem changeAll_accepted (c : Catalogue) (chs : List Change) :
    let kept := accepted (c.changeAll chs).1 chs
    c.Accepts kept ∧ (c.changeAll kept).2 = (c.changeAll chs).2 := by
  induction chs generalizing c with
  | nil => exact ⟨accepts_nil, rfl⟩
  | cons ch chs ih =>
    rw [changeAll]
    cases hchange : c.change ch with
    | error m => exact ih c
    | ok new =>
      obtain ⟨haccepts, hsame⟩ := ih new.1
      have hkept : accepted (.ok () :: (new.1.changeAll chs).1) (ch :: chs) =
          ch :: accepted (new.1.changeAll chs).1 chs := rfl
      dsimp only
      rw [hkept]
      refine ⟨accepts_cons_iff.mpr ⟨new.1, new.2, hchange, haccepts⟩, ?_⟩
      rw [changeAll, hchange]
      simp only [hsame]

/-- A refused change behind others changes nothing and reports nothing. -/
theorem changeAll_concat_of_error {chs : List Change} {ch : Change} {m : Misuse}
    (h : (c.changeAll chs).2.1.change ch = .error m) :
    c.changeAll (chs ++ [ch]) = ((c.changeAll chs).1 ++ [.error m], (c.changeAll chs).2) := by
  induction chs generalizing c with
  | nil =>
    have hfirst : c.change ch = .error m := h
    simp only [List.nil_append, changeAll, hfirst]
  | cons first chs ih =>
    rw [changeAll] at h
    rw [List.cons_append, changeAll, changeAll]
    cases hfirst : c.change first with
    | error m' =>
      rw [hfirst] at h
      simp only [ih h, List.cons_append]
    | ok new =>
      rw [hfirst] at h
      simp only [ih h, List.cons_append]

/-! ### What is refused -/

/-- **A type is refused** just if its code or its tag is taken. -/
theorem register_refused_iff :
    (∃ m, c.change (.register r) = .error m) ↔
      (c.find? r.code).isSome ∨ (c.rangeOf r.tag).isSome := by
  rw [change, register]
  cases c.find? r.code with
  | some old => exact iff_of_true ⟨_, rfl⟩ (.inl rfl)
  | none =>
    cases c.rangeOf r.tag with
    | some range => exact iff_of_true ⟨_, rfl⟩ (.inr rfl)
    | none =>
      constructor
      · rintro ⟨m, hm⟩
        cases hm
      · rintro (hcode | htag)
        · cases hcode
        · cases htag

/-- **A family is refused** just if it has no codes or its tag is taken. -/
theorem declare_refused_iff :
    (∃ m, c.change (.declare f) = .error m) ↔
      f.range.high < f.range.low ∨ (c.rangeOf f.tag).isSome := by
  rw [change, declare]
  by_cases hempty : f.range.high < f.range.low
  · rw [if_pos hempty]
    exact iff_of_true ⟨_, rfl⟩ (.inl hempty)
  · rw [if_neg hempty]
    cases c.rangeOf f.tag with
    | some range => exact iff_of_true ⟨_, rfl⟩ (.inr rfl)
    | none =>
      constructor
      · rintro ⟨m, hm⟩
        cases hm
      · rintro (hless | htag)
        · exact absurd hless hempty
        · cases htag

namespace Collects

variable {chs : List Change} {name : String}

/-- The codes that are taken are those of the types that were registered. -/
theorem isSome_find?_iff (h : (empty name).Collects chs c) {code : UInt32} :
    (c.find? code).isSome ↔ code ∈ (registered chs).map Registration.code := by
  have htypes : c.types.Perm (registered chs) := h.types.trans (.of_eq (List.append_nil _))
  rw [Option.isSome_iff_ne_none, ne_eq, find?_eq_none_iff, not_not,
    (htypes.map Registration.code).mem_iff]

/-- The tags that are taken are those of types that were registered and families that were
declared. -/
theorem isSome_rangeOf_iff (h : (empty name).Collects chs c) {tag : TypeTag} :
    (c.rangeOf tag).isSome ↔ tag ∈ (registered chs).map Registration.tag ∨
      tag ∈ (declared chs).map Family.tag := by
  have htypes : c.types.Perm (registered chs) := h.types.trans (.of_eq (List.append_nil _))
  have hfamilies : c.families = declared chs := h.families
  rw [Option.isSome_iff_ne_none, ne_eq, rangeOf_eq_none_iff, not_not, List.mem_append,
    (htypes.map Registration.tag).mem_iff, hfamilies]

end Collects

end Catalogue

/-! ### Tables that fit together -/

namespace Tables

open Catalogue (accepted declared)

/-- The tables fit together, and the families are these. -/
structure Consistent (t : Tables) (fs : List Family) : Prop where
  /-- A code belongs to exactly one type, which has this code alone. -/
  codes : ∀ code, (t.codes code).isSome →
    ∃! tag, tag ∉ t.groups ∧ t.ranges tag = some (.single code)
  /-- The families stand on the list in order, -/
  groups : t.groups = fs.map Family.tag
  /-- and none of them twice. -/
  nodup : t.groups.Nodup
  /-- A family has the range that it was declared with, and it has codes. -/
  ranges : ∀ f ∈ fs, t.ranges f.tag = some f.range ∧ f.range.low ≤ f.range.high
  /-- All ranges are those of families, and of codes that have a type. -/
  others : ∀ tag range, t.ranges tag = some range →
    tag ∈ t.groups ∨ ∃ code, range = .single code ∧ (t.codes code).isSome

theorem consistent_empty : Consistent empty [] where
  codes := nofun
  groups := rfl
  nodup := List.nodup_nil
  ranges := nofun
  others := nofun

section

variable {κ α : Type} [DecidableEq κ] {table : κ → Option α} {k : κ} {v : α}

/-- An entry where there was none takes no other entry away. -/
theorem update_eq_some_iff (h : table k = none) (k' : κ) (w : α) :
    Function.update table k (some v) k' = some w ↔ k' = k ∧ v = w ∨ table k' = some w := by
  by_cases hk : k' = k
  · subst hk
    rw [Function.update_self, h, Option.some.injEq]
    simp
  · rw [Function.update_of_ne hk]
    simp [hk]

theorem isSome_update_iff (h : table k = none) (k' : κ) :
    (Function.update table k (some v) k').isSome ↔ k' = k ∨ (table k').isSome := by
  simp only [Option.isSome_iff_exists, update_eq_some_iff h, exists_or, exists_and_left,
    exists_eq', and_true]

end

/-- A type was entered that collides with nothing. -/
theorem register_eq_ok {collection : String} {t t' : Tables} {r : Registration}
    (h : t.register collection r = .ok t') :
    t.codes r.code = none ∧ t.ranges r.tag = none ∧ t' = { t with
      codes := Function.update t.codes r.code (some r.entry)
      ranges := Function.update t.ranges r.tag (some (.single r.code)) } := by
  rw [register] at h
  cases hcode : t.codes r.code with
  | some old =>
    rw [hcode] at h
    cases h
  | none =>
    rw [hcode] at h
    cases htag : t.ranges r.tag with
    | some range =>
      rw [htag] at h
      cases h
    | none =>
      rw [htag] at h
      exact ⟨rfl, rfl, (Except.ok.inj h).symm⟩

/-- A family was entered that has codes and collides with nothing. -/
theorem declare_eq_ok {collection : String} {t t' : Tables} {f : Family}
    (h : t.declare collection f = .ok t') :
    ¬f.range.high < f.range.low ∧ t.ranges f.tag = none ∧ t' = { t with
      ranges := Function.update t.ranges f.tag (some f.range)
      groups := t.groups ++ [f.tag] } := by
  rw [declare] at h
  by_cases hempty : f.range.high < f.range.low
  · rw [if_pos hempty] at h
    cases h
  · rw [if_neg hempty] at h
    cases htag : t.ranges f.tag with
    | some range =>
      rw [htag] at h
      cases h
    | none =>
      rw [htag] at h
      exact ⟨hempty, rfl, (Except.ok.inj h).symm⟩

theorem single_inj {code code' : UInt32} (h : CodeRange.single code = .single code') :
    code = code' :=
  congrArg CodeRange.low h

namespace Consistent

variable {t t' : Tables} {fs : List Family} {collection : String}

/-- What has no range is no family. -/
theorem not_mem_groups (h : t.Consistent fs) {tag : TypeTag} (htag : t.ranges tag = none) :
    tag ∉ t.groups := by
  intro hmem
  rw [h.groups] at hmem
  obtain ⟨f, hf, rfl⟩ := List.mem_map.mp hmem
  rw [(h.ranges f hf).1] at htag
  cases htag

/-- **A new type** has the range of its code, which no other type had before. -/
theorem register (h : t.Consistent fs) {r : Registration}
    (hr : t.register collection r = .ok t') : t'.Consistent fs := by
  obtain ⟨hcode, htag, rfl⟩ := register_eq_ok hr
  have hgroup := h.not_mem_groups htag
  have hranges (tag : TypeTag) (range : CodeRange) :=
    update_eq_some_iff (v := CodeRange.single r.code) htag tag range
  have hcodes (code : UInt32) := isSome_update_iff (v := r.entry) hcode code
  refine ⟨fun code hsome => ?_, h.groups, h.nodup, fun f hf => ?_, fun tag range hrange => ?_⟩
  · rcases (hcodes code).mp hsome with rfl | hold
    · -- another type of this code would have had its range before the code was there
      refine ⟨r.tag, ⟨hgroup, (hranges _ _).mpr (.inl ⟨rfl, rfl⟩)⟩, fun tag ⟨htype, hrange⟩ => ?_⟩
      rcases (hranges _ _).mp hrange with ⟨hsame, -⟩ | hbefore
      · exact hsame
      · rcases h.others tag _ hbefore with hmem | ⟨code, hsingle, hsome⟩
        · exact absurd hmem htype
        · rw [← single_inj hsingle, hcode] at hsome
          cases hsome
    · obtain ⟨tag, ⟨htype, hrange⟩, honly⟩ := h.codes code hold
      refine ⟨tag, ⟨htype, (hranges _ _).mpr (.inr hrange)⟩, fun tag' ⟨htype', hrange'⟩ => ?_⟩
      rcases (hranges _ _).mp hrange' with ⟨-, hsingle⟩ | hbefore
      · rw [← single_inj hsingle, hcode] at hold
        cases hold
      · exact honly tag' ⟨htype', hbefore⟩
  · exact (h.ranges f hf).imp_left fun hrange => (hranges _ _).mpr (.inr hrange)
  · rcases (hranges _ _).mp hrange with ⟨-, rfl⟩ | hbefore
    · exact .inr ⟨r.code, rfl, (hcodes _).mpr (.inl rfl)⟩
    · exact (h.others tag range hbefore).imp_right fun ⟨code, hsingle, hsome⟩ =>
        ⟨code, hsingle, (hcodes _).mpr (.inr hsome)⟩

/-- **A new family** is no type, and takes no range away. -/
theorem declare (h : t.Consistent fs) {f : Family}
    (hf : t.declare collection f = .ok t') : t'.Consistent (fs ++ [f]) := by
  obtain ⟨hempty, htag, rfl⟩ := declare_eq_ok hf
  have hgroup := h.not_mem_groups htag
  have hranges (tag : TypeTag) (range : CodeRange) :=
    update_eq_some_iff (v := f.range) htag tag range
  have hmem : ∀ tag, tag ∈ t.groups ++ [f.tag] ↔ tag ∈ t.groups ∨ tag = f.tag := by
    intro tag
    rw [List.mem_append, List.mem_singleton]
  refine ⟨fun code hsome => ?_, ?_, ?_, fun g hg => ?_, fun tag range hrange => ?_⟩
  · obtain ⟨tag, ⟨htype, hrange⟩, honly⟩ := h.codes code hsome
    have hne : tag ≠ f.tag := by
      rintro rfl
      rw [htag] at hrange
      cases hrange
    refine ⟨tag, ⟨fun hin => ((hmem tag).mp hin).elim htype hne,
      (hranges _ _).mpr (.inr hrange)⟩, fun tag' ⟨htype', hrange'⟩ => ?_⟩
    obtain ⟨hold, hnew⟩ := not_or.mp fun hin => htype' ((hmem tag').mpr hin)
    rcases (hranges _ _).mp hrange' with ⟨hsame, -⟩ | hbefore
    · exact absurd hsame hnew
    · exact honly tag' ⟨hold, hbefore⟩
  · rw [h.groups, List.map_append]
    rfl
  · rw [List.nodup_append_comm]
    exact List.nodup_cons.mpr ⟨hgroup, h.nodup⟩
  · rcases List.mem_append.mp hg with hold | hnew
    · exact (h.ranges g hold).imp_left fun hrange => (hranges _ _).mpr (.inr hrange)
    · obtain rfl := List.mem_singleton.mp hnew
      exact ⟨(hranges _ _).mpr (.inl ⟨rfl, rfl⟩), UInt32.not_lt.mp hempty⟩
  · rcases (hranges _ _).mp hrange with ⟨hsame, -⟩ | hbefore
    · exact .inl ((hmem tag).mpr (.inr hsame))
    · exact (h.others tag range hbefore).imp_left fun hold => (hmem tag).mpr (.inl hold)

/-- **One change** leaves the tables fitting together. -/
theorem change (h : t.Consistent fs) {ch : Change}
    (hch : t.change collection ch = .ok t') : t'.Consistent (fs ++ declared [ch]) := by
  cases ch with
  | context context =>
    obtain rfl := Except.ok.inj hch
    rw [show declared [.context context] = [] from rfl, List.append_nil]
    exact ⟨h.codes, h.groups, h.nodup, h.ranges, h.others⟩
  | register r =>
    rw [show declared [.register r] = [] from rfl, List.append_nil]
    exact h.register hch
  | declare f => exact h.declare hch

/-- **The tables fit together at all times**, whichever changes are refused. -/
theorem changeAll (h : t.Consistent fs) (chs : List Change) :
    let ran := t.changeAll collection chs
    ran.2.Consistent (fs ++ declared (accepted ran.1 chs)) := by
  induction chs generalizing t fs with
  | nil =>
    show t.Consistent (fs ++ [])
    rw [List.append_nil]
    exact h
  | cons ch chs ih =>
    rw [Tables.changeAll]
    cases hch : t.change collection ch with
    | error m => exact ih h
    | ok t' =>
      have hrest : (t'.changeAll collection chs).2.Consistent
          (fs ++ declared [ch] ++ declared (accepted (t'.changeAll collection chs).1 chs)) :=
        ih (h.change hch)
      rw [List.append_assoc, declared, declared, ← List.filterMap_append] at hrest
      exact hrest

end Consistent

end Tables

/-- **The ledger of a catalogue**, after any changes to a new one, some of which may have been
refused.

It answers as the three tables do that are changed by themselves, reply by reply. A refused change
leaves it as it was, now and in the whole history. A type is refused just if its code is registered,
or its tag is that of a type or family; a family, just if it has no codes, or its tag is. And the
tables fit together: each code belongs to one type, which has this code alone, the families stand in
order, each once, with the ranges that they were declared with, and there are no other ranges. So
who looks a family up finds its range. -/
theorem Catalogue.ledger (name : String) (chs : List Change) :
    let ran := (empty name).changeAll chs
    let c := ran.2.1
    let kept := accepted ran.1 chs
    Tables.empty.changeAll name chs = (ran.1, c.tables) ∧
      ((empty name).changeAll kept).2 = ran.2 ∧
      (∀ ch m, c.change ch = .error m → ((empty name).changeAll (chs ++ [ch])).2 = ran.2) ∧
      (∀ r, (∃ m, c.change (.register r) = .error m) ↔
        r.code ∈ (registered kept).map Registration.code ∨
          r.tag ∈ (registered kept).map Registration.tag ∨ r.tag ∈ (declared kept).map Family.tag) ∧
      (∀ f, (∃ m, c.change (.declare f) = .error m) ↔ f.range.high < f.range.low ∨
        f.tag ∈ (registered kept).map Registration.tag ∨ f.tag ∈ (declared kept).map Family.tag) ∧
      (∀ context m, c.change (.context context) ≠ .error m) ∧
      (∀ r ∈ registered kept, c.find? r.code = some r ∧
        c.tables.ranges r.tag = some (.single r.code)) ∧
      c.families = declared kept ∧ c.tables.Consistent (declared kept) := by
  intro ran c kept
  have htables : Tables.empty.changeAll name chs = (ran.1, c.tables) :=
    tables_changeAll (empty name) chs
  obtain ⟨haccepts, hsame⟩ := changeAll_accepted (empty name) chs
  have hcollects : (empty name).Collects kept c := by
    have h := collects haccepts
    rwa [hsame] at h
  have hconsistent : c.tables.Consistent (declared kept) := by
    have h : (Tables.empty.changeAll name chs).2.Consistent
        (declared (accepted (Tables.empty.changeAll name chs).1 chs)) :=
      Tables.consistent_empty.changeAll chs
    rwa [htables] at h
  refine ⟨htables, hsame, fun ch m hch => ?_, fun r => ?_, fun f => ?_, fun _ _ => nofun,
    fun r hr => ?_, hcollects.families, hconsistent⟩
  · rw [changeAll_concat_of_error hch]
  · rw [register_refused_iff, hcollects.isSome_find?_iff, hcollects.isSome_rangeOf_iff]
  · rw [declare_refused_iff, hcollects.isSome_rangeOf_iff]
  · have hsound : c.Sound := sound_changeAll (sound_empty name) chs
    have hmem : r ∈ c.types := hcollects.types.mem_iff.mpr (List.mem_append_left _ hr)
    exact ⟨hsound.find?_type hmem, hsound.rangeOf_type hmem⟩

/-- A tag cannot be a family and a type, nor the other way round. Another tag of the same name can. -/
example :
    ((Catalogue.empty "shapes").changeAll [.declare ⟨⟨"Shape"⟩, ⟨1, 2⟩⟩,
      .register ⟨1, "Shape", ⟨"Shape"⟩, .ok (.strict [])⟩,
      .register ⟨1, "Square", ⟨"Square"⟩, .ok (.strict [])⟩,
      .declare ⟨⟨"Square"⟩, ⟨1, 1⟩⟩,
      .register ⟨2, "Tile", ⟨⟨"Square", 1⟩⟩, .ok (.strict [])⟩]).1 =
      [.ok (), .error (.typeTaken "shapes" "Shape"), .ok (),
        .error (.familyTaken "shapes" "Square"), .ok ()] :=
  rfl

end RecordCodec
