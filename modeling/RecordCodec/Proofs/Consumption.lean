import Mathlib.Data.List.TakeWhile
import RecordCodec.Proofs.Reads

/-!
# What a success consumes

When bytes are read, some of them may say how many others there are, or where others end. So what a
decoder consumes is known only in the end. Still, a success is accounted for by the bytes that it
consumed: nothing that follows them is looked at, and none of them can be missing.

`Act.Exact` says this of one act, together with what the consumed bytes have to do with the value.
It passes through `>>=`, because a front of two pieces is a front of the first, or all of the first
and a front of the second.

An act can be exact without the count of bytes ahead playing no role. A decoder compares a count
with them, and so the same sequence may be read or not, depending on what follows it, unless each
item takes a byte. Whether that is so is a matter of schemas, and `Terms.firm` stands for it.

## Main definitions

* `Error.isShortage`, `Error.isCutOff` — the errors that say that bytes are missing.
* `Facing` — a state that reads on, with these bytes ahead.
* `Terms` — what a reading takes for granted.
* `Act.Needs` — the act takes these bytes, for this value, and can do with no fewer.
* `Act.Exact` — what the act gives, it gives for bytes that it needs.

## Main results

* `Cursor.cuts_cut`, `Cursor.cuts_cutTerminated` — the two ways to cut.
* `Act.Exact.bind` — two acts in a row.
-/

namespace RecordCodec

/-! ### Errors -/

namespace Error

/-- More bytes were asked for than were left. -/
def isShortage : Error → Bool
  | .bufferExhausted requested remaining => remaining < requested
  | _ => false

/-- Bytes, or a terminator, were missing. -/
def isCutOff : Error → Bool
  | .unterminatedField _ => true
  | e => e.isShortage

end Error

/-! ### Cuts -/

namespace Cursor

variable {lacks : Error → Prop} {c c' : Cursor} {data : Bytes} {name : String}

/-- The way to cut takes `data` off wherever that is ahead, and gives `a` for it. Where only a front
of `data` is ahead, it fails for want of the rest. -/
structure Cuts (lacks : Error → Prop) (f : Cursor → Except Error (Bytes × Cursor))
    (a data : Bytes) : Prop where
  whole : ∀ {c more}, c.rest = data ++ more → f c = .ok (a, c.advance data.length)
  short : ∀ {c back}, c.limit ≤ c.buffer.length → data = c.rest ++ back → back ≠ [] →
    ∃ e, f c = .error e ∧ lacks e

theorem cuts_cut (hlacks : ∀ {requested left}, left < requested →
    lacks (.bufferExhausted requested left)) (data : Bytes) :
    Cuts lacks (cut data.length) data data where
  whole h := cut_of_rest h
  short := by
    intro c back hinside hdata hback
    have hpos := List.length_pos_iff.mpr hback
    have hunread : c.unread < data.length := by
      rw [← length_rest hinside, hdata, List.length_append]
      omega
    exact ⟨_, cut_eq_error_iff.mpr ⟨hunread, rfl⟩, hlacks hunread⟩

theorem rest_of_cut {n : Nat} (hinside : c.limit ≤ c.buffer.length)
    (h : c.cut n = .ok (data, c')) : data.length = n ∧ ∃ more, c.rest = data ++ more := by
  obtain ⟨hn, hdata, -⟩ := cut_eq_ok_iff.mp h
  have hfront : data = c.rest.take n := by
    rw [hdata, rest, List.take_take, Nat.min_eq_left hn]
  refine ⟨?_, c.rest.drop n, ?_⟩
  · rw [hfront, List.length_take, length_rest hinside, Nat.min_eq_left hn]
  · rw [hfront, List.take_append_drop]

theorem cuts_cutTerminated (hlacks : lacks (.unterminatedField name))
    (hzero : data.contains 0 = false) :
    Cuts lacks (cutTerminated name) data (data ++ [0]) where
  whole h := cutTerminated_of_rest hzero h
  short := by
    intro c back _ hdata hback
    obtain ⟨middle, last, rfl⟩ : ∃ middle last, back = middle ++ [last] :=
      ⟨back.dropLast, back.getLast hback, (List.dropLast_concat_getLast hback).symm⟩
    rw [← List.append_assoc] at hdata
    obtain ⟨rfl, -⟩ := List.append_inj' hdata rfl
    -- a front of bytes without a terminator has none either
    have hnone : ∀ b ∈ c.rest, (b != 0) = true := by
      intro b hb
      rw [bne_iff_ne]
      rintro rfl
      rw [List.contains_iff_mem.mpr (List.mem_append_left middle hb)] at hzero
      exact absurd hzero (by decide)
    have hall : c.rest.takeWhile (· != 0) = c.rest := List.takeWhile_eq_self_iff.mpr hnone
    refine ⟨_, ?_, hlacks⟩
    simp only [cutTerminated, hall, if_true]

theorem rest_of_cutTerminated (h : c.cutTerminated name = .ok (data, c')) :
    data.contains 0 = false ∧ ∃ more, c.rest = data ++ [0] ++ more := by
  simp only [cutTerminated] at h
  split at h
  · cases h
  · rename_i hlong
    obtain ⟨rfl, -⟩ := Prod.mk.inj (Except.ok.inj h)
    have hsplit := List.takeWhile_append_dropWhile (p := (· != 0)) (l := c.rest)
    constructor
    · rw [Bool.eq_false_iff]
      intro hmem
      have hnone := List.all_eq_true.mp (List.all_takeWhile (p := (· != 0)) (l := c.rest)) 0
        (List.contains_iff_mem.mp hmem)
      exact absurd hnone (by decide)
    · cases hback : c.rest.dropWhile (· != 0) with
      | nil =>
        rw [hback, List.append_nil] at hsplit
        exact absurd (congrArg List.length hsplit) hlong
      | cons b more =>
        have hb : (b != 0) = false := by
          have hhead := List.head?_dropWhile_not (· != 0) c.rest
          rw [hback] at hhead
          simpa using hhead
        obtain rfl : b = 0 := by simpa using hb
        refine ⟨more, ?_⟩
        rw [hback] at hsplit
        rw [List.append_assoc]
        exact hsplit.symm

end Cursor

/-! ### States that read on -/

variable {σ α β : Type} [HoldsCursor σ]

open HoldsCursor

/-- The state reads on. Its memory is `m` apart from the cursor, and these bytes are ahead. -/
structure Facing (m : σ) (bs : Bytes) (t : Traversal σ) : Prop where
  clean : t.error = none
  decodes : t.direction = .decode
  memory : t.store = withCursor (cursor t.store) m
  inside : (cursor t.store).limit ≤ (cursor t.store).buffer.length
  rest : (cursor t.store).rest = bs

theorem Facing.advance {m : σ} {t : Traversal σ} {data more : Bytes}
    (h : Facing m (data ++ more) t) : Facing m more (t.advance data.length) where
  clean := h.clean
  decodes := h.decodes
  memory := by
    rw [Traversal.advance, cursor_withCursor, h.memory, withCursor_withCursor, cursor_withCursor]
  inside := by
    rw [Traversal.advance, cursor_withCursor]
    exact h.inside
  rest := by
    rw [Traversal.advance, cursor_withCursor, Cursor.rest_advance, h.rest, List.drop_left]

/-- What a reading takes for granted. -/
structure Terms (σ : Type) where
  /-- The memory of the decoder, wherever its cursor is. -/
  memory : σ
  /-- The errors that say that bytes are missing. -/
  lacks : Error → Prop
  /-- Every item of every sequence takes a byte. -/
  firm : Prop

namespace Act

variable {τ : Terms σ}

/-- The act takes `data`, gives `a`, reports `log`, and leaves what follows. Where only a front of
`data` is ahead, it fails for want of the rest. -/
structure Needs (τ : Terms σ) (act : Act σ α) (a : α) (data : Bytes) (log : List Event) :
    Prop where
  reads : Reads (Facing τ.memory) act a data log
  starves : ∀ {front back t}, data = front ++ back → back ≠ [] → Facing τ.memory front t →
    ∃ e, (act t).result = .error e ∧ (act t).state.error = some e ∧ τ.lacks e

/-- Where the act succeeds, it has consumed bytes that its value is spelled with. On firm terms it
needs them. -/
structure Exact (τ : Terms σ) (act : Act σ α) (spells : α → Bytes → Prop) : Prop where
  accounts : ∀ {bs t a}, Facing τ.memory bs t → (act t).result = .ok a →
    ∃ data more, bs = data ++ more ∧ Facing τ.memory more (act t).state ∧ spells a data ∧
      (τ.firm → Needs τ act a data (act t).log)

/-! ### Acts in a row -/

/-- A front of two pieces ends inside the first of them, or it has all of the first. -/
theorem front_of_append {data data' front back : Bytes} (h : data ++ data' = front ++ back) :
    (∃ middle, middle ≠ [] ∧ data = front ++ middle) ∨
      ∃ middle, front = data ++ middle ∧ data' = middle ++ back := by
  rcases List.append_eq_append_iff.mp h with hlonger | ⟨middle, hdata, hback⟩
  · exact .inr hlonger
  · cases middle with
    | nil =>
      rw [List.append_nil] at hdata
      exact .inr ⟨[], by rw [hdata, List.append_nil], hback.symm⟩
    | cons b middle => exact .inl ⟨b :: middle, List.cons_ne_nil b middle, hdata⟩

theorem Needs.bind {act : Act σ α} {next : α → Act σ β} {a : α} {b : β} {data data' : Bytes}
    {log log' : List Event} (h : Needs τ act a data log) (h' : Needs τ (next a) b data' log') :
    Needs τ (act >>= next) b (data ++ data') (log ++ log') where
  reads := h.reads.bind h'.reads
  starves := by
    intro front back t hdata hback ht
    rcases front_of_append hdata with ⟨middle, hsome, hmiddle⟩ | ⟨middle, rfl, hmiddle⟩
    · -- the first act does not find all of its bytes
      obtain ⟨e, hresult, hstate, he⟩ := h.starves hmiddle hsome ht
      rw [bind_of_error hresult]
      exact ⟨e, rfl, hstate, he⟩
    · -- the first act finds its bytes, and leaves too few for the second
      obtain ⟨s, hact, hs⟩ := h.reads _ t ht
      obtain ⟨e, hresult, hstate, he⟩ := h'.starves hmiddle hback hs
      rw [bind_of_ok (a := a) (by rw [hact])]
      simp only [hact, hresult, hstate]
      exact ⟨e, rfl, rfl, he⟩

namespace Exact

variable {act act' : Act σ α} {P Q : α → Bytes → Prop}

/-- What is known of the bytes may be put in other words. -/
theorem mono (h : Exact τ act P) (hPQ : ∀ a data, P a data → Q a data) : Exact τ act Q := by
  refine ⟨?_⟩
  intro bs t a ht ha
  obtain ⟨data, more, hbs, hmore, hP, hneeds⟩ := h.accounts ht ha
  exact ⟨data, more, hbs, hmore, hPQ a data hP, hneeds⟩

/-- Only states that read on matter. -/
theorem congr (h : Exact τ act P)
    (hact : ∀ bs t, Facing τ.memory bs t → act' t = act t) : Exact τ act' P := by
  refine ⟨?_⟩
  intro bs t a ht ha
  rw [hact bs t ht] at ha
  obtain ⟨data, more, hbs, hmore, hP, hneeds⟩ := h.accounts ht ha
  rw [hact bs t ht]
  refine ⟨data, more, hbs, hmore, hP, ?_⟩
  intro hfirm
  have hneed := hneeds hfirm
  constructor
  · intro rest u hu
    rw [hact _ u hu]
    exact hneed.reads rest u hu
  · intro front back u hdata hback hu
    rw [hact _ u hu]
    exact hneed.starves hdata hback hu

/-- **Two acts in a row** consume what the one and then the other consumes. -/
theorem bind {next : α → Act σ β} {R : α → β → Bytes → Prop} (h : Exact τ act P)
    (hnext : ∀ a, Exact τ (next a) (R a)) :
    Exact τ (act >>= next) fun b data =>
      ∃ a d d', data = d ++ d' ∧ P a d ∧ R a b d' := by
  refine ⟨?_⟩
  intro bs t b ht hb
  cases ha : (act t).result with
  | error e =>
    rw [bind_of_error ha] at hb
    cases hb
  | ok a =>
    rw [bind_of_ok ha] at hb ⊢
    obtain ⟨d, more, hbs, hmore, hP, hneeds⟩ := h.accounts ht ha
    obtain ⟨d', more', hbs', hmore', hR, hneeds'⟩ := (hnext a).accounts hmore hb
    refine ⟨d ++ d', more', ?_, hmore', ⟨a, d, d', rfl, hP, hR⟩, ?_⟩
    · rw [hbs, hbs', List.append_assoc]
    · intro hfirm
      exact (hneeds hfirm).bind (hneeds' hfirm)

end Exact

/-! ### The primitive acts -/

/-- An act that succeeds without a look at the input. -/
theorem Exact.of_still {act : Act σ α} {a : α} {log : List Event}
    (h : ∀ bs t, Facing τ.memory bs t → act t = ⟨.ok a, t, log⟩) :
    Exact τ act fun b data => b = a ∧ data = [] := by
  refine ⟨?_⟩
  intro bs t b ht hb
  rw [h bs t ht] at hb ⊢
  refine ⟨[], bs, rfl, ht, ⟨(Except.ok.inj hb).symm, rfl⟩, fun _ => ⟨?_, ?_⟩⟩
  · intro rest u hu
    rw [← Except.ok.inj hb]
    exact ⟨u, h _ u hu, hu⟩
  · intro front back u hnil hback
    exact absurd (List.append_eq_nil_iff.mp hnil.symm).2 hback

theorem exact_pure (a : α) : Exact τ (pure a) fun b data => b = a ∧ data = [] :=
  .of_still fun _ _ _ => rfl

theorem exact_report (e : Event) : Exact τ (report e) fun _ data => data = [] :=
  (Exact.of_still fun _ _ _ => rfl).mono fun _ _ h => h.2

theorem exact_check : Exact τ check fun _ data => data = [] := by
  have hstill : ∀ bs t, Facing τ.memory bs t → check t = ⟨.ok (), t, []⟩ := by
    intro bs t ht
    rw [check, Traversal.check_eq_ok_iff.mpr ht.clean]
  exact (Exact.of_still hstill).mono fun _ _ h => h.2

/-- An act that never succeeds. -/
theorem exact_fail (e : Error) (P : α → Bytes → Prop) : Exact τ (fail e) P := by
  refine ⟨?_⟩
  intro bs t a ht ha
  obtain ⟨stored, hresult, -⟩ := error_fail (α := α) e t
  rw [hresult] at ha
  cases ha

/-- **A cut** consumes the bytes that it cuts off. -/
theorem exact_cut {f : Cursor → Except Error (Bytes × Cursor)} {P : Bytes → Bytes → Prop}
    (hf : ∀ {c a c'}, c.limit ≤ c.buffer.length → f c = .ok (a, c') →
      ∃ data more, c.rest = data ++ more ∧ Cursor.Cuts τ.lacks f a data ∧ P a data) :
    Exact τ (cut f) P := by
  refine ⟨?_⟩
  intro bs t a ht ha
  cases hcut : f (cursor t.store) with
  | error e =>
    rw [cut_of_error ht.clean hcut] at ha
    cases ha
  | ok cutOff =>
    obtain ⟨data, more, hrest, hcuts, hP⟩ := hf ht.inside hcut
    have hsuccess := cut_of_ok ht.clean (hcuts.whole hrest)
    rw [hsuccess] at ha ⊢
    obtain rfl : cutOff.1 = a := Except.ok.inj ha
    have hbs : bs = data ++ more := ht.rest.symm.trans hrest
    refine ⟨data, more, hbs, (hbs ▸ ht).advance, hP, fun _ => ⟨?_, ?_⟩⟩
    · intro rest u hu
      exact ⟨_, cut_of_ok hu.clean (hcuts.whole hu.rest), hu.advance⟩
    · intro front back u hdata hback hu
      rw [← hu.rest] at hdata
      obtain ⟨e, hshort, he⟩ := hcuts.short hu.inside hdata hback
      rw [cut_of_error hu.clean hshort]
      exact ⟨e, rfl, rfl, he⟩

theorem exact_cut_bytes (hlacks : ∀ {requested left}, left < requested →
    τ.lacks (.bufferExhausted requested left)) (n : Nat) :
    Exact τ (cut (Cursor.cut n)) fun a data => a = data ∧ data.length = n := by
  refine exact_cut ?_
  intro c a c' hinside hcut
  obtain ⟨rfl, more, hrest⟩ := Cursor.rest_of_cut hinside hcut
  exact ⟨a, more, hrest, Cursor.cuts_cut hlacks a, rfl, rfl⟩

/-- An act that takes bytes and judges them. Its complaint may depend on where it stands, its
consent may not. -/
theorem Exact.judge {act : Act σ α} {P : α → Bytes → Prop} (h : Exact τ act P)
    {next : σ → α → Act σ β}
    (hnext : ∀ a, (∃ b, ∀ m, next m a = pure b) ∨ ∀ m, ∃ e, next m a = fail e) :
    Exact τ (store >>= fun m => act >>= next m) fun b data =>
      ∃ a, P a data ∧ ∀ m, next m a = pure b := by
  refine ⟨?_⟩
  intro bs t b ht hb
  have hstore : ∀ u, (store >>= fun m => act >>= next m) u = (act >>= next u.store) u := by
    intro u
    rw [bind_of_ok (a := u.store) rfl]
    rfl
  rw [hstore] at hb ⊢
  cases ha : (act t).result with
  | error e =>
    rw [bind_of_error ha] at hb
    cases hb
  | ok a =>
    rw [bind_of_ok ha] at hb ⊢
    rcases hnext a with ⟨b', hconsent⟩ | hcomplaint
    · rw [hconsent] at hb ⊢
      obtain rfl : b' = b := Except.ok.inj hb
      obtain ⟨data, more, hbs, hmore, hP, hneeds⟩ := h.accounts ht ha
      refine ⟨data, more, hbs, hmore, ⟨a, hP, hconsent⟩, fun hfirm => ⟨?_, ?_⟩⟩
      · intro rest u hu
        obtain ⟨s, hact, hs⟩ := (hneeds hfirm).reads rest u hu
        refine ⟨s, ?_, hs⟩
        rw [hstore, bind_of_ok (a := a) (by rw [hact]), hconsent, hact]
        rfl
      · intro front back u hdata hback hu
        obtain ⟨e, hresult, hstate, he⟩ := (hneeds hfirm).starves hdata hback hu
        rw [hstore, bind_of_error hresult]
        exact ⟨e, rfl, hstate, he⟩
    · obtain ⟨e, hfail⟩ := hcomplaint t.store
      obtain ⟨stored, hresult, -⟩ := error_fail (α := β) e (act t).state
      rw [hfail, hresult] at hb
      cases hb

end Act

end RecordCodec
