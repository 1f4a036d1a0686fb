import RecordCodec.Proofs.Registry.Ranges
import RecordCodec.Registry.Schema

/-!
# The order of registrations does not matter

A catalogue is made by changes, one after another, and each of them is checked against those before
it. A history of changes that were all accepted may be told in any other order, if only the families
are declared in the same order and the context is set once. Nothing is refused then, and the
catalogue is the same in the end, so nobody can tell the two histories apart who looks at the
collection.

No two changes are exchanged to see this. That a history is accepted is a property of all its types
and families together, and the catalogue it leaves has its types in the order of their codes.

## Main definitions

* `Change.registered?`, `Change.declared?`, `Change.context?` — what a change brings.
* `Catalogue.Accepts` — no change of a history is refused.
* `Catalogue.Collects` — what a history that is accepted makes of a catalogue.

## Main results

* `Catalogue.accepts_iff` — when a history is accepted.
* `Catalogue.collects` — the catalogue in the end has what the changes brought.
* `Catalogue.build_perm` — changes in another order lead to the same collection.
-/

namespace RecordCodec

namespace Catalogue

/-! ### What changes bring -/

namespace Change

/-- The type that is registered. -/
def registered? : Change → Option Registration
  | .register r => some r
  | _ => none

/-- The family that is declared. -/
def declared? : Change → Option Family
  | .declare f => some f
  | _ => none

/-- The context that is set. -/
def context? : Change → Option Context
  | .context value => some value
  | _ => none

end Change

/-- The types that changes register. -/
def registered (chs : List Change) : List Registration :=
  chs.filterMap Change.registered?

/-- The families that changes declare. -/
def declared (chs : List Change) : List Family :=
  chs.filterMap Change.declared?

/-- The contexts that changes set. -/
def contexts (chs : List Change) : List Context :=
  chs.filterMap Change.context?

/-! ### Histories that are accepted -/

variable {c c' : Catalogue} {ch : Change} {chs chs' : List Change}

/-- No change is refused. -/
def Accepts (c : Catalogue) (chs : List Change) : Prop :=
  ∀ result ∈ (c.changeAll chs).1, result = .ok ()

theorem accepts_nil : c.Accepts [] :=
  nofun

theorem accepts_cons_iff :
    c.Accepts (ch :: chs) ↔ ∃ c' log, c.change ch = .ok (c', log) ∧ c'.Accepts chs := by
  rw [Accepts, changeAll]
  cases hchange : c.change ch with
  | error m =>
    constructor
    · intro h
      have hfirst : Except.error m = Except.ok () := h _ List.mem_cons_self
      cases hfirst
    · rintro ⟨c', log, h, -⟩
      cases h
  | ok new =>
    constructor
    · intro h
      exact ⟨new.1, new.2, rfl, fun result hresult => h result (List.mem_cons_of_mem _ hresult)⟩
    · rintro ⟨c', log, hnew, h⟩
      obtain rfl := Except.ok.inj hnew
      exact List.forall_mem_cons.mpr ⟨rfl, h⟩

theorem changeAll_cons_of_ok {log : List Event} (h : c.change ch = .ok (c', log)) :
    (c.changeAll (ch :: chs)).2.1 = (c'.changeAll chs).2.1 := by
  rw [changeAll, h]

theorem accepts_context_iff {context : Context} :
    c.Accepts (.context context :: chs) ↔ (c.withContext context).Accepts chs := by
  rw [accepts_cons_iff]
  constructor
  · rintro ⟨c', log, hchange, h⟩
    obtain ⟨rfl, -⟩ := Prod.mk.inj (Except.ok.inj hchange)
    exact h
  · intro h
    exact ⟨c.withContext context, [], rfl, h⟩

theorem accepts_register_iff (hc : c.IsCompatible) {r : Registration} :
    c.Accepts (.register r :: chs) ↔ Compatible (r :: c.types) c.families ∧
      Accepts { c with types := insertByCode r c.types } chs := by
  rw [accepts_cons_iff]
  constructor
  · rintro ⟨c', log, hchange, h⟩
    obtain ⟨hr, rfl⟩ := (register_iff hc).mp ⟨log, hchange⟩
    exact ⟨hr, h⟩
  · rintro ⟨hr, h⟩
    obtain ⟨log, hchange⟩ := (register_iff hc).mpr ⟨hr, rfl⟩
    exact ⟨_, log, hchange, h⟩

theorem accepts_declare_iff (hc : c.IsCompatible) {f : Family} :
    c.Accepts (.declare f :: chs) ↔ Compatible c.types (c.families ++ [f]) ∧
      Accepts { c with families := c.families ++ [f] } chs := by
  rw [accepts_cons_iff]
  constructor
  · rintro ⟨c', log, hchange, h⟩
    obtain ⟨hf, rfl⟩ := (declare_iff hc).mp ⟨log, hchange⟩
    exact ⟨hf, h⟩
  · rintro ⟨hf, h⟩
    obtain ⟨log, hchange⟩ := (declare_iff hc).mpr ⟨hf, rfl⟩
    exact ⟨_, log, hchange, h⟩

/-- A type among others, in order or in front. -/
theorem perm_append_insertByCode (rs ss : List Registration) (r : Registration) :
    (rs ++ insertByCode r ss).Perm (r :: rs ++ ss) :=
  ((perm_insertByCode r ss).append_left rs).trans List.perm_middle

/-- **A history is accepted** just if all its types and families can be in one catalogue, together
with those that are there. -/
theorem accepts_iff (hc : c.IsCompatible) :
    c.Accepts chs ↔ Compatible (registered chs ++ c.types) (c.families ++ declared chs) := by
  -- what the first change brings is in the catalogue when the others are checked
  induction chs generalizing c with
  | nil =>
    rw [declared, List.filterMap_nil, List.append_nil]
    exact iff_of_true accepts_nil hc
  | cons ch chs ih =>
    cases ch with
    | context context => exact accepts_context_iff.trans (ih (c := c.withContext context) hc)
    | register r =>
      have hperm := perm_append_insertByCode (registered chs) c.types r
      rw [accepts_register_iff hc]
      constructor
      · rintro ⟨hr, h⟩
        exact ((ih (isCompatible_insert hr)).mp h).perm hperm (.refl _)
      · intro hall
        have hr : Compatible (r :: c.types) c.families :=
          hall.sublist ((List.sublist_append_right (registered chs) c.types).cons_cons r)
            (List.sublist_append_left c.families (declared chs))
        exact ⟨hr, (ih (isCompatible_insert hr)).mpr (hall.perm hperm.symm (.refl _))⟩
    | declare f =>
      have hfamilies : c.families ++ declared (.declare f :: chs) =
          (c.families ++ [f]) ++ declared chs :=
        (List.append_assoc c.families [f] (declared chs)).symm
      rw [accepts_declare_iff hc, hfamilies]
      constructor
      · rintro ⟨hf, h⟩
        exact (ih hf).mp h
      · intro hall
        have hf : Compatible c.types (c.families ++ [f]) :=
          hall.sublist (List.sublist_append_right (registered chs) c.types)
            (List.sublist_append_left (c.families ++ [f]) (declared chs))
        exact ⟨hf, (ih hf).mpr hall⟩

/-! ### What a history leaves -/

/-- The catalogue `c'` is `c` with what the changes brought. -/
structure Collects (c : Catalogue) (chs : List Change) (c' : Catalogue) : Prop where
  name : c'.name = c.name
  /-- Of several contexts the last one counts. -/
  context : c'.context = (contexts chs).getLastD c.context
  types : c'.types.Perm (registered chs ++ c.types)
  families : c'.families = c.families ++ declared chs

/-- **A history that is accepted** leaves a catalogue with all that the changes brought. -/
theorem collects (h : c.Accepts chs) : c.Collects chs (c.changeAll chs).2.1 := by
  induction chs generalizing c with
  | nil => exact ⟨rfl, rfl, .refl _, (List.append_nil c.families).symm⟩
  | cons ch chs ih =>
    obtain ⟨c', log, hchange, hchs⟩ := accepts_cons_iff.mp h
    rw [changeAll_cons_of_ok hchange]
    have hrest := ih hchs
    rcases change_cases hchange with ⟨context, rfl, rfl⟩ | ⟨r, rfl, -, -, rfl⟩ | ⟨f, rfl, -, -, rfl⟩
    · refine ⟨hrest.name, hrest.context.trans ?_, hrest.types, hrest.families⟩
      exact (List.getLastD_cons ..).symm
    · refine ⟨hrest.name, hrest.context, hrest.types.trans ?_, hrest.families⟩
      exact perm_append_insertByCode (registered chs) c.types r
    · refine ⟨hrest.name, hrest.context, hrest.types, hrest.families.trans ?_⟩
      exact List.append_assoc c.families [f] (declared chs)

/-- Only one catalogue in order can have collected the same. -/
theorem Collects.eq {one other : Catalogue} (hone : c.Collects chs one)
    (hother : c.Collects chs other) (hascending : Ascending one.types)
    (hascending' : Ascending other.types) : one = other := by
  have htypes := hascending.eq_of_perm hascending' (hone.types.trans hother.types.symm)
  have hfamilies := hone.families.trans hother.families.symm
  have hcontext := hone.context.trans hother.context.symm
  have hname := hone.name.trans hother.name.symm
  cases one
  cases other
  cases htypes
  cases hfamilies
  cases hcontext
  cases hname
  rfl

/-! ### Another order -/

/-- A context that is set once is set once in another order. -/
theorem contexts_eq_of_perm (hperm : chs.Perm chs') (h : (contexts chs).length ≤ 1) :
    contexts chs = contexts chs' := by
  have hcontexts : (contexts chs).Perm (contexts chs') := hperm.filterMap _
  match hset : contexts chs with
  | [] =>
    rw [hset, List.nil_perm] at hcontexts
    exact hcontexts.symm
  | [context] =>
    rw [hset, List.singleton_perm] at hcontexts
    exact hcontexts
  | first :: second :: others =>
    rw [hset] at h
    exact absurd (Nat.le_of_succ_le_succ h) (Nat.not_succ_le_zero _)

section

variable (hperm : chs.Perm chs') (hdeclared : declared chs = declared chs')

include hperm hdeclared

/-- A history that is accepted is accepted in another order. -/
theorem Accepts.perm (hc : c.IsCompatible) (h : c.Accepts chs) : c.Accepts chs' := by
  rw [accepts_iff hc] at h ⊢
  rw [← hdeclared]
  exact h.perm ((hperm.filterMap _).append_right c.types) (.refl _)

theorem Collects.perm (hcontexts : (contexts chs).length ≤ 1) (h : c.Collects chs c') :
    c.Collects chs' c' where
  name := h.name
  context := contexts_eq_of_perm hperm hcontexts ▸ h.context
  types := h.types.trans ((hperm.filterMap _).append_right c.types)
  families := hdeclared ▸ h.families

/-- **In another order** the same changes leave the same catalogue. -/
theorem changeAll_perm (hc : c.Sound) (hcontexts : (contexts chs).length ≤ 1)
    (h : c.Accepts chs) : (c.changeAll chs').2.1 = (c.changeAll chs).2.1 :=
  (collects (h.perm hperm hdeclared hc.compatible)).eq
    ((collects h).perm hperm hdeclared hcontexts)
    (sound_changeAll hc chs').ascending (sound_changeAll hc chs).ascending

end

/-- **The order of registrations does not matter.** If a history of changes to a new catalogue is
accepted, then so is any other order of it that declares the families in the same order and has one
context at most. Building the two catalogues gives the same refusal, or else the same collection, so
that it shows and makes the same objects. It lists the types that were registered, by ascending
code, and the families in the order in which they were declared, and each code and each tag has what
it was given. -/
theorem build_perm (name : String) {chs chs' : List Change} (hperm : chs.Perm chs')
    (hdeclared : declared chs = declared chs') (hcontexts : (contexts chs).length ≤ 1)
    (haccepted : (empty name).Accepts chs) :
    let one := ((empty name).changeAll chs).2.1
    let other := ((empty name).changeAll chs').2.1
    (empty name).Accepts chs' ∧ other.build = one.build ∧
      ∀ built, one.build = .ok built →
        built.schema.types.Perm ((registered chs).map fun r => (r.code, r.name)) ∧
        built.schema.types.Pairwise (fun t u => t.1 < u.1) ∧
        built.schema.families = (declared chs).map (fun f => (f.tag.typeName, f.range)) ∧
        (∀ r ∈ registered chs, built.catalogue.find? r.code = some r ∧
          built.catalogue.rangeOf r.tag = some (.single r.code)) ∧
        ∀ f ∈ declared chs, built.catalogue.rangeOf f.tag = some f.range := by
  intro one other
  have hsound := sound_empty name
  refine ⟨haccepted.perm hperm hdeclared hsound.compatible,
    congrArg build (changeAll_perm hperm hdeclared hsound hcontexts haccepted), fun built h => ?_⟩
  have hone : one.Sound := sound_changeAll hsound chs
  have hcollects : (empty name).Collects chs one := collects haccepted
  have htypes : one.types.Perm (registered chs) :=
    hcollects.types.trans (.of_eq (List.append_nil _))
  rw [Collection.schema, build_eq_ok h]
  refine ⟨htypes.map _, List.pairwise_map.mpr hone.ascending,
    congrArg (List.map _) hcollects.families, fun r hr => ?_, fun f hf => ?_⟩
  · rw [← htypes.mem_iff] at hr
    exact ⟨hone.find?_type hr, hone.rangeOf_type hr⟩
  · refine hone.rangeOf_family ?_
    rw [hcollects.families]
    exact hf

/-- Two types, their family and the context, told forwards and backwards. -/
theorem build_perm_reverse :
    let chs : List Change := [.context .storage,
      .register ⟨8, "Pair", ⟨"Pair"⟩, .ok (.strict [.leaf "n" .u8 0, .leaf "k" .u8 0])⟩,
      .declare ⟨⟨"Numbers"⟩, ⟨7, 8⟩⟩,
      .register ⟨7, "Number", ⟨"Number"⟩, .ok (.strict [.leaf "n" .u8 0])⟩]
    ∃ built, ((empty "numbers").changeAll chs.reverse).2.1.build = .ok built ∧
      ((empty "numbers").changeAll chs).2.1.build = .ok built ∧
      built.schema.types = [(7, "Number"), (8, "Pair")] := by
  intro chs
  have haccepted : (empty "numbers").Accepts chs := fun result h =>
    List.eq_of_mem_replicate (n := 4) h
  obtain ⟨-, hbuild, -⟩ :=
    build_perm "numbers" (List.reverse_perm chs).symm rfl (Nat.le_refl 1) haccepted
  exact ⟨_, hbuild, rfl, rfl⟩

end Catalogue

end RecordCodec
