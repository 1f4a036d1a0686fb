import RecordCodec.Proofs.Binary.Safety
import RecordCodec.Proofs.StopByStop

/-!
# What an interrupted decoder leaves

A run that fails has changed its record in part. If the record has no sequences, the part is told by
the leaf at which the decoder failed: the leaves in front of it have what a decoder would have given
them that never saw the rest, and from this leaf on nothing has changed, not even who owns a block.
A record that goes on after a failure is not different.

The binary decoder has read all of a leaf when it gives the value, so the failing leaf is never
changed. The key decoder has yet to pass over the border behind it. If just this border is missing,
the leaf may have its value already; this is so for all leaves but signed integers.

## Main definitions

* `Record.ofLeaves` — leaves alone, as a record.
* `KeyDecoder.LacksBorder` — a leaf that can be read, but not its border.

## Main results

* `run_interrupted` — a run that fails, in terms of stops.
* `decodes_up_to_failure` — what is left in the binary decoder, and in the key decoder.
-/

namespace RecordCodec

/-! ### Leaves alone -/

/-- A record that consists of leaves. -/
def Record.ofLeaves (ls : List Leaf) : Record :=
  .strict (ls.map fun l => .leaf l.name l.kind l.value)

/-- The leaves among stops. -/
def leavesOf (ss : List Stop) : List Leaf :=
  ss.filterMap Stop.leaf?

theorem leavesOf_append (ss us : List Stop) : leavesOf (ss ++ us) = leavesOf ss ++ leavesOf us :=
  List.filterMap_append

theorem leavesOf_leaf (l : Leaf) (ss : List Stop) :
    leavesOf (.leaf l :: ss) = l :: leavesOf ss :=
  rfl

theorem leavesOf_close (ss : List Stop) : leavesOf (.close :: ss) = leavesOf ss :=
  rfl

theorem Record.leaves_eq (r : Record) : r.leaves = leavesOf r.stops :=
  rfl

theorem Record.stops_ofLeaves (ls : List Leaf) : (ofLeaves ls).stops = ls.map .leaf := by
  induction ls with
  | nil => rfl
  | cons l ls ih => exact congrArg (Stop.leaf l :: ·) ih

theorem Record.isPassive_ofLeaves (ls : List Leaf) : (ofLeaves ls).isPassive := by
  induction ls with
  | nil => rfl
  | cons l ls ih => exact ih

theorem Record.isFlat_ofLeaves (ls : List Leaf) : (ofLeaves ls).isFlat := by
  induction ls with
  | nil => rfl
  | cons l ls ih => exact ih

/-! ### Runs -/

section

variable {σ : Type} [Codec σ]

namespace Taken

variable {ss us : List Stop} {t u : Traversal σ}

/-- Stops that can all be visited are all visited. -/
theorem eq_of_ok (h : Taken ss t us u) (hok : (visitStops ss t).result = .ok ()) :
    us = (visitStops ss t).value ∧ u = (visitStops ss t).state := by
  cases h with
  | all _ hus hu => exact ⟨hus, hu⟩
  | upTo hss hfront hfails _ _ _ =>
    rw [hss, visitStops_append_of_ok hfront, visitStops_cons_of_error hfails] at hok
    cases hok

/-- If an error is stored in the end, one of the stops failed with it. -/
theorem exists_of_error [Codec.Lawful σ] [Codec.Freezing σ] (h : Taken ss t us u)
    (ht : t.error = none) {e : Error} (he : u.error = some e) :
    ∃ front s back s', ss = front ++ s :: back ∧ (visitStops front t).result = .ok () ∧
      (s.visit (visitStops front t).state).result = .error e ∧
      s.Remains (visitStops front t).state e s' ∧
      us = (visitStops front t).value ++ s' :: back := by
  cases h with
  | all hok _ hu =>
    rw [hu, visitStops_ok ht hok] at he
    cases he
  | @upTo front back s s' e' hss hfront hfails hremains hus hu =>
    have htold := s.visit_tells _ e' hfails
    rw [← hu, he] at htold
    obtain rfl := Option.some.inj htold
    exact ⟨front, s, back, s', hss, hfront, hfails, hremains, hus⟩

end Taken

/-- Where an error is stored, it is what a run fails with. -/
theorem run_of_stored {r : Record} {t : Traversal σ} {stored e : Error}
    (ht : t.error = some stored) (h : (run r t).result = .error e) :
    (run r t).value = r ∧ t.error = some e := by
  rw [run_of_error ht] at h ⊢
  rw [ht, Except.error.inj h]
  exact ⟨rfl, rfl⟩

variable [Codec.Lawful σ] [Codec.Refusing σ] [Codec.Freezing σ]
  (hend : ∀ u, ((Codec.closeRun : Act σ Unit) u).state = u) {r : Record} (hr : r.isPassive)
  (hflat : r.isFlat) {t : Traversal σ} (ht : t.error = none)
  (hopen : ((Codec.openRun : Act σ Unit) t).result = .ok ())
  (hclean : ((Codec.openRun : Act σ Unit) t).state.error = none)

include hend hr hflat ht hopen hclean

theorem run_taken :
    Taken r.stops ((Codec.openRun : Act σ Unit) t).state (run r t).value.stops (run r t).state ∧
      (run r t).result = (run r t).state.check := by
  obtain ⟨-, hvalue, -⟩ := run_of_opened ht hopen r
  obtain ⟨hstate, hresult⟩ := run_passive hr ht hopen
  refine ⟨?_, hresult⟩
  rw [hvalue, hstate, hend]
  exact Record.taken hr hflat hclean

/-- **A run that fails** once it has begun fails at a stop. The stops in front of it were visited,
and those behind it are as before. -/
theorem run_interrupted {e : Error} (h : (run r t).result = .error e) :
    ∃ front s back s', r.stops = front ++ s :: back ∧
      let before := visitStops front ((Codec.openRun : Act σ Unit) t).state
      before.result = .ok () ∧ (s.visit before.state).result = .error e ∧
        s.Remains before.state e s' ∧ (run r t).value.stops = before.value ++ s' :: back := by
  obtain ⟨htaken, hresult⟩ := run_taken hend hr hflat ht hopen hclean
  rw [hresult] at h
  exact htaken.exists_of_error hclean (Traversal.error_of_check h)

end

/-! ### The binary decoder -/

namespace Decoder

variable {t : Traversal Decoder}

/-- Only a leaf can fail, and it is left as it was. -/
theorem remains_eq {s s' : Stop} {e : Error} (h : (s.visit t).result = .error e)
    (h' : s.Remains t e s') : s' = s ∧ ∃ l, s = .leaf l := by
  refine ⟨?_, ?_⟩
  · cases h' with
    | old => rfl
    | read _ _ hclose => cases hclose
  · cases s with
    | leaf l => exact ⟨l, rfl⟩
    | close => cases h

/-- Closes do nothing, so stops are visited as their leaves alone. -/
theorem visitStops_leaves (ss : List Stop) (t : Traversal Decoder) :
    let all := visitStops ss t
    let alone := visitStops ((leavesOf ss).map .leaf) t
    alone.result = all.result ∧ alone.state = all.state ∧
      leavesOf alone.value = leavesOf all.value := by
  induction ss generalizing t with
  | nil => exact ⟨rfl, rfl, rfl⟩
  | cons s ss ih =>
    cases s with
    | close =>
      have hclose : (Stop.close.visit t).result = .ok () := rfl
      rw [leavesOf_close, visitStops_cons_of_ok hclose]
      exact ih t
    | leaf l =>
      rw [leavesOf_leaf, List.map_cons]
      cases hleaf : ((Stop.leaf l).visit t).result with
      | error e =>
        rw [visitStops_cons_of_error hleaf, visitStops_cons_of_error hleaf]
        refine ⟨rfl, rfl, ?_⟩
        have hleaves : leavesOf ((leavesOf ss).map Stop.leaf) = leavesOf ss := by
          rw [leavesOf, List.filterMap_map]
          exact List.filterMap_some
        exact congrArg (_ :: ·) hleaves
      | ok u =>
        obtain ⟨hresult, hstate, hvalue⟩ := ih ((Stop.leaf l).visit t).state
        rw [visitStops_cons_of_ok hleaf, visitStops_cons_of_ok hleaf]
        exact ⟨hresult, hstate, congrArg (_ :: ·) hvalue⟩

/-- **Leaves alone** are decoded as where they stand among other stops. -/
theorem run_ofLeaves (ht : t.error = none) (hopen : (prepare t).result = .ok ()) {ss : List Stop}
    (hok : (visitStops ss (prepare t).state).result = .ok ()) :
    let alone := run (Record.ofLeaves (leavesOf ss)) t
    alone.result = .ok () ∧ alone.state = (visitStops ss (prepare t).state).state ∧
      alone.value.leaves = leavesOf (visitStops ss (prepare t).state).value := by
  have hclean : (prepare t).state.error = none := (prepare_ok hopen).2.trans ht
  obtain ⟨hresult, hstate, hvalue⟩ := visitStops_leaves ss (prepare t).state
  obtain ⟨htaken, hrun⟩ := run_taken (fun _ => rfl) (Record.isPassive_ofLeaves (leavesOf ss))
    (Record.isFlat_ofLeaves (leavesOf ss)) ht hopen hclean
  rw [Record.stops_ofLeaves] at htaken
  obtain ⟨hstops, hend⟩ := htaken.eq_of_ok (hresult.trans hok)
  refine ⟨?_, hend.trans hstate, ?_⟩
  · rw [hrun, hend, Traversal.check_eq_ok_iff]
    exact visitStops_ok hclean (hresult.trans hok)
  · rw [Record.leaves_eq, hstops]
    exact hvalue

/-- **A run of the binary decoder** that has begun fails at a leaf. -/
theorem run_up_to_leaf {r : Record} (hr : r.isPassive) (hflat : r.isFlat) (ht : t.error = none)
    (hopen : (prepare t).result = .ok ()) {e : Error} (h : (run r t).result = .error e) :
    ∃ front l back, r.leaves = front ++ l :: back ∧
      let before := run (Record.ofLeaves front) t
      before.result = .ok () ∧ (visitLeaf l.kind l.name l.value before.state).result = .error e ∧
        (run r t).value.leaves = before.value.leaves ++ l :: back := by
  have hclean : (prepare t).state.error = none := (prepare_ok hopen).2.trans ht
  obtain ⟨front, s, back, s', hstops, hfront, hfails, hremains, hvalue⟩ :=
    run_interrupted (fun _ => rfl) hr hflat ht hopen hclean h
  obtain ⟨rfl, l, rfl⟩ := remains_eq hfails hremains
  obtain ⟨hresult, hstate, hleaves⟩ := run_ofLeaves ht hopen hfront
  refine ⟨leavesOf front, l, leavesOf back, ?_, hresult, ?_, ?_⟩
  · rw [Record.leaves_eq, hstops, leavesOf_append, leavesOf_leaf]
  · rw [hstate]
    exact hfails
  · rw [Record.leaves_eq, hvalue, leavesOf_append, leavesOf_leaf, hleaves]
    rfl

end Decoder

/-! ### The key decoder -/

namespace KeyDecoder

variable {t : Traversal KeyDecoder} {e : Error}

/-- A border is missing only where there is not enough left for it. -/
theorem unread_of_skipBorder (ht : t.error = none) (h : (skipBorder t).result = .error e) :
    t.store.cursor.unread < t.store.borderLength := by
  rcases Nat.lt_or_ge t.store.cursor.unread t.store.borderLength with hless | hle
  · exact hless
  · have hcut : t.store.cursor.cut t.store.borderLength =
        .ok (_, t.store.cursor.advance t.store.borderLength) :=
      Cursor.cut_eq_ok_iff.mpr ⟨hle, rfl, rfl⟩
    have htake := Act.cut_of_ok ht hcut
    have hskip : skipBorder t =
        (Act.cut (Cursor.cut t.store.borderLength) >>= fun _ => pure ()) t := by
      simp only [skipBorder, Act.bind_apply, Act.store, List.nil_append, take_eq_cut]
    rw [hskip, Act.bind_apply, htake] at h
    cases h

/-- The value of a leaf can be read, but what is left then is too short for the border. -/
def LacksBorder (l : Leaf) (v : l.kind.Value) (t : Traversal KeyDecoder) : Prop :=
  let seen := read l.kind l.name l.value t
  seen.result = .ok v ∧ seen.state.store.cursor.unread < seen.state.store.borderLength

/-- The stop that fails is as it was, or it is a leaf that lacks its border. -/
theorem remains_cases {s s' : Stop} (ht : t.error = none) (h : s.Remains t e s') :
    s' = s ∨ ∃ l v, s = .leaf l ∧ s' = .leaf ⟨l.name, l.kind, v⟩ ∧ LacksBorder l v t := by
  cases h with
  | old => exact .inl rfl
  | @read l v hs hread hclose =>
    have hclean := (Codec.Lawful.visit_faithful l.kind l.name l.value).error_of_ok ht hread
    exact .inr ⟨l, v, hs, rfl, hread, unread_of_skipBorder hclean hclose⟩

/-- **A run of the key decoder** fails at a leaf, or at the end of a nested record. -/
theorem run_up_to_stop {r : Record} (hr : r.isPassive) (hflat : r.isFlat) (ht : t.error = none)
    (h : (run r t).result = .error e) :
    ∃ front s back s', r.stops = front ++ s :: back ∧
      let before := visitStops front t
      before.result = .ok () ∧ (s.visit before.state).result = .error e ∧
        (run r t).value.stops = before.value ++ s' :: back ∧
        (s' = s ∨ ∃ l v, s = .leaf l ∧ s' = .leaf ⟨l.name, l.kind, v⟩ ∧
          LacksBorder l v before.state) := by
  obtain ⟨front, s, back, s', hstops, hfront, hfails, hremains, hvalue⟩ :=
    run_interrupted (fun _ => rfl) hr hflat ht rfl ht h
  exact ⟨front, s, back, s', hstops, hfront, hfails, hvalue,
    remains_cases (visitStops_ok ht hfront) hremains⟩

end KeyDecoder

/-! ### The two decoders -/

/-- **A failed run changes what is in front of the failure**, and nothing else. The record has no
sequences, and may go on after a failure or not. A run of the binary decoder fails before anything
is visited, or at a leaf: those in front of it have the values that they get when they are decoded
alone, and the leaf and those behind it are as before. A run of the key decoder stops in the same
way, where the stops are leaves or the ends of nested records; only the leaf at which it stops may
have the value that was read for it, if nothing but its border was missing. -/
theorem decodes_up_to_failure {r : Record} (hr : r.isPassive) (hflat : r.isFlat) :
    (∀ (t : Traversal Decoder) (e : Error), (run r t).result = .error e →
      ((run r t).value = r ∧ (t.error = some e ∨ (Decoder.prepare t).result = .error e)) ∨
      ∃ front l back, r.leaves = front ++ l :: back ∧
        let before := run (Record.ofLeaves front) t
        before.result = .ok () ∧
          (visitLeaf l.kind l.name l.value before.state).result = .error e ∧
          (run r t).value.leaves = before.value.leaves ++ l :: back) ∧
    ∀ (t : Traversal KeyDecoder) (e : Error), (run r t).result = .error e →
      ((run r t).value = r ∧ t.error = some e) ∨
      ∃ front s back s', r.stops = front ++ s :: back ∧
        let before := visitStops front t
        before.result = .ok () ∧ (s.visit before.state).result = .error e ∧
          (run r t).value.stops = before.value ++ s' :: back ∧
          (s' = s ∨ ∃ l v, s = .leaf l ∧ s' = .leaf ⟨l.name, l.kind, v⟩ ∧
            KeyDecoder.LacksBorder l v before.state) := by
  refine ⟨fun t e h => ?_, fun t e h => ?_⟩
  · cases ht : t.error with
    | some stored =>
      obtain ⟨hvalue, hstored⟩ := run_of_stored ht h
      exact .inl ⟨hvalue, .inl (ht.symm.trans hstored)⟩
    | none =>
      cases hopen : (Decoder.prepare t).result with
      | error e' =>
        -- the trailer is wrong, or there is no room for one
        obtain ⟨hresult, hvalue, -⟩ := run_of_unopened ht hopen r
        exact .inl ⟨hvalue, .inr (hresult.symm.trans h)⟩
      | ok u => exact .inr (Decoder.run_up_to_leaf hr hflat ht hopen h)
  · cases ht : t.error with
    | some stored =>
      obtain ⟨hvalue, hstored⟩ := run_of_stored ht h
      exact .inl ⟨hvalue, ht.symm.trans hstored⟩
    | none => exact .inr (KeyDecoder.run_up_to_stop hr hflat ht h)

/-- The length of a text cannot be read. The number in front of it is new, and the text and what
comes behind it are old, though the record goes on. -/
theorem decodes_up_to_failure_text :
    let r := Record.lenient [.signed "n" .i16 (-1), .leaf "name" .text "old", .leaf "k" .u8 3] []
    let t := Decoder.start .network 0 [0, 5, 0, 0]
    ∃ front l back, r.leaves = front ++ l :: back ∧
      (run (Record.ofLeaves front) t).result = .ok () ∧
      (run r t).value.leaves = (run (Record.ofLeaves front) t).value.leaves ++ l :: back := by
  intro r t
  have hfails : (run r t).result = .error (.bufferExhausted 4 2) := by
    unfold r t
    rfl
  obtain ⟨-, hstored | hopen⟩ | ⟨front, l, back, hleaves, hresult, -, hvalue⟩ :=
    (decodes_up_to_failure (r := r) rfl rfl).1 t _ hfails
  · cases hstored
  · have hopens : (Decoder.prepare t).result = .ok () := by
      unfold t
      rfl
    rw [hopens] at hopen
    cases hopen
  · exact ⟨front, l, back, hleaves, hresult, hvalue⟩

end RecordCodec
