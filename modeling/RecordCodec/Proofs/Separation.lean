import Mathlib.Data.List.TakeWhile
import RecordCodec.Proofs.History
import RecordCodec.Proofs.Observation

/-!
# Separators between the values of a dump

While a run is under way, a separator follows every value, and the run ends by taking the last one
off. The next run has to put it back. It asks whether the dump is empty, which is not the question:
a run that showed one empty text has left an empty dump, and a value behind it needs a separator all
the same. So the separator of that value is lost, and the dump looks as if the run had not been.

Nothing else can go wrong. A dump with anything in it is continued as if it had never been
interrupted, and it does not matter what its values are made of, even of separators.

## Main definitions

* `Record.shown` — the texts of the leaves of a record, with their labels.
* `Record.isMute` — a record whose own dump is empty.
* `Record.together` — one record in the place of several.
* `Dump.Shows` — a dump of these texts.

## Main results

* `Dump.Shows.run` — one more run shows the texts of its record behind the others.
* `Dump.Shows.runs`, `Dump.Shows.runs_of_nil` — runs in a row, behind other texts and in front.
* `Dump.split_eq_together_iff` — when a dump can be split into runs without a trace.
-/

namespace RecordCodec

/-! ### Texts with a separator between them -/

section

variable {sep : Char} {texts more : List (List Char)}

/-- Between texts and behind the last of them: behind each of them. -/
theorem intercalate_concat_sep (h : texts ≠ []) :
    [sep].intercalate texts ++ [sep] = texts.flatMap (· ++ [sep]) := by
  induction texts with
  | nil => exact absurd rfl h
  | cons text texts ih =>
    cases texts with
    | nil => simp
    | cons next texts =>
      rw [List.flatMap_cons, ← ih (List.cons_ne_nil next texts)]
      simp

theorem intercalate_append (h : texts ≠ []) (h' : more ≠ []) :
    [sep].intercalate (texts ++ more) =
      [sep].intercalate texts ++ [sep] ++ [sep].intercalate more := by
  -- with one more separator behind the last text there is no first case any more
  have hclosed : [sep].intercalate (texts ++ more) ++ [sep] =
      [sep].intercalate texts ++ [sep] ++ [sep].intercalate more ++ [sep] := by
    rw [intercalate_concat_sep (List.append_ne_nil_of_left_ne_nil h more), List.flatMap_append,
      ← intercalate_concat_sep h, ← intercalate_concat_sep h', List.append_assoc _ _ [sep]]
  exact List.append_cancel_right hclosed

/-- One empty text is not to be told from no text. -/
theorem intercalate_eq_nil_iff : [sep].intercalate texts = [] ↔ texts = [] ∨ texts = [[]] := by
  cases texts with
  | nil => simp
  | cons text texts => cases texts <;> simp

/-- Texts can be left out in front if there are none, or if all that there is is one empty text. -/
theorem intercalate_eq_append_iff :
    [sep].intercalate more = [sep].intercalate (texts ++ more) ↔
      texts = [] ∨ texts ++ more = [[]] := by
  by_cases h : texts = []
  · simp [h]
  by_cases h' : more = []
  · rw [h', List.append_nil, List.intercalate_nil, eq_comm, intercalate_eq_nil_iff]
  · -- there is a separator between the two parts, at least
    have hlength : ([sep].intercalate (texts ++ more)).length =
        ([sep].intercalate texts).length + 1 + ([sep].intercalate more).length := by
      simp only [intercalate_append h h', List.length_append, List.length_singleton]
    refine iff_of_false ?_ ?_
    · intro hsame
      rw [← hsame] at hlength
      omega
    · rintro (hnone | hone)
      · exact h hnone
      · have htwo := congrArg List.length hone
        have := List.length_pos_iff.mpr h
        have := List.length_pos_iff.mpr h'
        rw [List.length_append, List.length_singleton] at htwo
        omega

end

/-! ### What records show -/

/-- The text of a leaf, behind its label if there are labels. -/
def Leaf.shown (options : Mask) (l : Leaf) : List Char :=
  Dump.label options l.name ++ (Dump.valueText l.kind l.value).toList

/-- The texts of the leaves of a record, in the order of visits. -/
def Record.shown (options : Mask) (r : Record) : List (List Char) :=
  r.leaves.map (Leaf.shown options)

/-- Nothing is to be seen of the record alone: it has no leaves, or one with an empty text. -/
def Record.isMute (options : Mask) (r : Record) : Bool :=
  ([Dump.separatorOf options].intercalate (r.shown options)).isEmpty

theorem Record.isMute_iff {options : Mask} {r : Record} :
    r.isMute options ↔ r.shown options = [] ∨ r.shown options = [[]] := by
  rw [isMute, List.isEmpty_iff, intercalate_eq_nil_iff]

/-- Where there are labels, nothing is to be seen of no leaves only. -/
theorem Record.shown_of_isMute {options : Mask} (hnames : meets options Options.names) {r : Record}
    (hr : r.isMute options) : r.shown options = [] := by
  rcases isMute_iff.mp hr with hnone | hone
  · exact hnone
  · obtain ⟨l, -, hl⟩ := List.map_eq_singleton_iff.mp hone
    rw [Leaf.shown, Dump.label, if_pos hnames, List.append_assoc] at hl
    exact absurd hl (List.append_ne_nil_of_right_ne_nil _ nofun)

/-- One record with the fields of all records. -/
def Record.together (rs : List Record) : Record :=
  .strict (rs.flatMap Record.fields)

theorem fieldStops_append (fs gs : List Field) :
    fieldStops (fs ++ gs) = fieldStops fs ++ fieldStops gs := by
  induction fs with
  | nil => rfl
  | cons f fs ih => rw [List.cons_append, fieldStops, ih, fieldStops, List.append_assoc]

theorem fieldsData_append (fs gs : List Field) :
    fieldsData (fs ++ gs) = (fieldsData fs && fieldsData gs) := by
  induction fs with
  | nil => rfl
  | cons f fs ih => rw [List.cons_append, fieldsData, ih, fieldsData, Bool.and_assoc]

theorem Record.isData_together {rs : List Record} (h : ∀ r ∈ rs, r.isData) :
    (together rs).isData := by
  induction rs with
  | nil => rfl
  | cons r rs ih =>
    obtain ⟨hr, hrs⟩ := List.forall_mem_cons.mp h
    rw [together, List.flatMap_cons, isData, fieldsData_append, Bool.and_eq_true]
    refine ⟨?_, ih hrs⟩
    cases r with
    | strict fields => exact hr
    | lenient fields results => exact absurd hr Bool.false_ne_true

theorem Record.stops_together (rs : List Record) :
    (together rs).stops = rs.flatMap Record.stops := by
  induction rs with
  | nil => rfl
  | cons r rs ih =>
    have hfields : r.stops = fieldStops r.fields := by cases r <;> rfl
    rw [together, List.flatMap_cons, stops, fieldStops_append, List.flatMap_cons, hfields]
    exact congrArg (fieldStops r.fields ++ ·) ih

theorem Record.shown_together (options : Mask) (rs : List Record) :
    (together rs).shown options = rs.flatMap (shown options) := by
  rw [shown, leaves, stops_together, List.filterMap_flatMap, List.map_flatMap]
  rfl

namespace Dump

/-! ### Walks and runs -/

/-- The texts, each with a separator behind it. -/
def spaced (sep : Char) (texts : List (List Char)) : List Char :=
  texts.flatMap (· ++ [sep])

/-- The traversal with further texts in its dump. -/
def extended (texts : List (List Char)) (t : Traversal Dump) : Traversal Dump :=
  { t with store := t.store.add (spaced t.store.separator texts) }

variable {options : Mask} {texts : List (List Char)} {t : Traversal Dump}

theorem extended_extended (texts more : List (List Char)) (t : Traversal Dump) :
    extended more (extended texts t) = extended (texts ++ more) t := by
  simp [extended, add, spaced]

theorem perform_leaf_eq (l : Leaf) (ht : t.error = none) :
    (Stop.leaf l).perform t = ⟨.ok (), extended [l.shown t.options] t, []⟩ := by
  have hcheck : t.check = .ok () := Traversal.check_eq_ok_iff.mpr ht
  have hvisit : ∀ (k : Kind) (name : String) (v : k.Value),
      (Codec.visit k name v : Act Dump k.Value) = (do put k name v; pure v) := fun _ _ _ => rfl
  rw [Stop.perform_leaf hvisit]
  simp [put, Codec.close, Act.bind_apply, Act.check, hcheck, Act.state, Act.modifyStore, extended,
    spaced, Leaf.shown]

/-- A walk shows its leaves. -/
theorem walk_eq (ss : List Stop) (ht : t.error = none) :
    walk ss t =
      ⟨.ok (), extended ((ss.filterMap Stop.leaf?).map (Leaf.shown t.options)) t, []⟩ := by
  induction ss generalizing t with
  | nil =>
    show (⟨.ok (), t, []⟩ : Outcome Dump Unit) = _
    simp [extended, add, spaced]
  | cons s ss ih =>
    cases s with
    | leaf l =>
      have hleaf := perform_leaf_eq l ht
      have hrest := ih (t := extended [l.shown t.options] t) ht
      rw [extended_extended] at hrest
      rw [walk, Act.bind_of_ok (a := ()) (by rw [hleaf])]
      simp only [hleaf, hrest]
      rfl
    | close =>
      have hclose : (Stop.close.perform : Act Dump Unit) t = ⟨.ok (), t, []⟩ := rfl
      rw [walk, Act.bind_of_ok (a := ()) (by rw [hclose])]
      simp only [hclose, ih ht]
      rfl

/-- The dump shows these texts, and is in order. -/
structure Shows (options : Mask) (texts : List (List Char)) (t : Traversal Dump) : Prop where
  clean : t.error = none
  inspects : t.direction = .inspect
  sameOptions : t.options = options
  store : t.store = ⟨[separatorOf options].intercalate texts, separatorOf options⟩

theorem shows_start (context : Context) (options : Mask) :
    Shows options [] (start context options) :=
  ⟨rfl, rfl, rfl, rfl⟩

/-- A separator is put behind the texts so far, unless they are one empty text. -/
theorem continued_eq {sep : Char} (htexts : texts ≠ [[]]) :
    continued ⟨[sep].intercalate texts, sep⟩ = ⟨spaced sep texts, sep⟩ := by
  rw [continued]
  by_cases hnil : texts = []
  · rw [hnil]
    rfl
  · have hsome : ¬([sep].intercalate texts).isEmpty := by
      rw [List.isEmpty_iff, intercalate_eq_nil_iff]
      exact not_or_intro hnil htexts
    rw [if_neg hsome, add, intercalate_concat_sep hnil, spaced]

/-- The separator behind the last text is taken off. -/
theorem trimmed_eq (sep : Char) (texts : List (List Char)) :
    trimmed ⟨spaced sep texts, sep⟩ = ⟨[sep].intercalate texts, sep⟩ := by
  by_cases hnil : texts = []
  · rw [hnil]
    rfl
  · simp [trimmed, spaced, ← intercalate_concat_sep hnil]

/-- **One more run** shows the texts of its record behind the others, unless all there is so far is
one empty text, of which the run does not know. -/
theorem Shows.run {r : Record} (h : Shows options texts t) (htexts : texts ≠ [[]])
    (hr : r.isData) :
    ∃ t', run r t = ⟨.ok (), r, t', []⟩ ∧ Shows options (texts ++ r.shown options) t' := by
  obtain ⟨hclean, hdir, hoptions, hstore⟩ := h
  let opened : Traversal Dump := { t with store := t.store.continued }
  have hopened : opened.store = ⟨spaced (separatorOf options) texts, separatorOf options⟩ := by
    show t.store.continued = _
    rw [hstore, continued_eq htexts]
  have hvisit : r.visit opened = ⟨.ok (), r, extended (r.shown t.options) opened, []⟩ := by
    rw [Record.visit_eq_walk hr (t := opened) hclean (by rw [hdir]; nofun), Visited.ofAct,
      walk_eq _ (t := opened) hclean]
    rfl
  refine ⟨_, run_of_visit hclean rfl hvisit rfl hclean, hclean, hdir, hoptions, ?_⟩
  have hshown : (extended (r.shown t.options) opened).store =
      ⟨spaced (separatorOf options) (texts ++ r.shown options), separatorOf options⟩ := by
    rw [extended, hopened, hoptions, add, spaced, spaced, spaced, List.flatMap_append]
  show trimmed (extended (r.shown t.options) opened).store = _
  rw [hshown, trimmed_eq]

/-- **Runs in a row** behind other texts show all of their leaves. -/
theorem Shows.runs {rs : List Record} (h : Shows options texts t) (hsome : texts ≠ [])
    (htexts : texts ≠ [[]]) (hrs : ∀ r ∈ rs, r.isData) :
    ∃ t', performAll (rs.map .run) t = (rs.map (.ran (.ok ())), t', []) ∧
      Shows options (texts ++ rs.flatMap (Record.shown options)) t' := by
  induction rs generalizing texts t with
  | nil =>
    refine ⟨t, rfl, ?_⟩
    rwa [List.flatMap_nil, List.append_nil]
  | cons r rs ih =>
    obtain ⟨hr, hrest⟩ := List.forall_mem_cons.mp hrs
    obtain ⟨u, hrun, hu⟩ := h.run htexts hr
    have hsome' : texts ++ r.shown options ≠ [] := List.append_ne_nil_of_left_ne_nil hsome _
    have htexts' : texts ++ r.shown options ≠ [[]] := by
      intro hone
      rcases List.append_eq_singleton_iff.mp hone with ⟨hnone, -⟩ | ⟨hone, -⟩
      · exact hsome hnone
      · exact htexts hone
    obtain ⟨t', hruns, ht'⟩ := ih hu hsome' htexts' hrest
    refine ⟨t', performAll_run_cons hrun hruns, ?_⟩
    rwa [List.flatMap_cons, ← List.append_assoc]

/-- **Runs in a row** in an empty dump show the leaves of all records but the mute ones in front. -/
theorem Shows.runs_of_nil {rs : List Record} (h : Shows options [] t)
    (hrs : ∀ r ∈ rs, r.isData) :
    ∃ t', performAll (rs.map .run) t = (rs.map (.ran (.ok ())), t', []) ∧
      Shows options ((rs.dropWhile (Record.isMute options)).flatMap (Record.shown options)) t' := by
  induction rs generalizing t with
  | nil => exact ⟨t, rfl, h⟩
  | cons r rs ih =>
    obtain ⟨hr, hrest⟩ := List.forall_mem_cons.mp hrs
    obtain ⟨u, hrun, hu⟩ := h.run nofun hr
    rw [List.nil_append] at hu
    by_cases hmute : r.isMute options
    · -- the dump is as empty as before
      have hempty : Shows options [] u := by
        refine { hu with store := ?_ }
        rw [hu.store, intercalate_eq_nil_iff.mpr (Record.isMute_iff.mp hmute)]
        rfl
      obtain ⟨t', hruns, ht'⟩ := ih hempty hrest
      refine ⟨t', performAll_run_cons hrun hruns, ?_⟩
      rwa [List.dropWhile_cons_of_pos hmute]
    · obtain ⟨hsome, htexts⟩ := not_or.mp fun h => hmute (Record.isMute_iff.mpr h)
      obtain ⟨t', hruns, ht'⟩ := hu.runs hsome htexts hrest
      refine ⟨t', performAll_run_cons hrun hruns, ?_⟩
      rwa [List.dropWhile_cons_of_neg hmute, List.flatMap_cons]

theorem Shows.text (h : Shows options texts t) :
    t.store.text = String.ofList ([separatorOf options].intercalate texts) := by
  rw [Dump.text, h.store]

/-- **Splitting a dump into runs.** One run over the fields of all records shows the texts of all
leaves with one separator between them. Runs over the records show the same but for the mute records
in front. So the two dumps are the same exactly if nothing is shown of these, or if all that is
shown of all records is one empty text; with labels they are always the same. -/
theorem split_eq_together_iff (context : Context) (options : Mask) {rs : List Record}
    (hrs : ∀ r ∈ rs, r.isData) :
    let joined := fun texts => String.ofList ([separatorOf options].intercalate texts)
    let split := performAll (rs.map .run) (start context options)
    let whole := run (Record.together rs) (start context options)
    split.1 = rs.map (.ran (.ok ())) ∧ whole.result = .ok () ∧
      whole.state.store.text = joined (rs.flatMap (Record.shown options)) ∧
      split.2.1.store.text =
        joined ((rs.dropWhile (Record.isMute options)).flatMap (Record.shown options)) ∧
      (split.2.1.store.text = whole.state.store.text ↔
        (rs.takeWhile (Record.isMute options)).flatMap (Record.shown options) = [] ∨
          rs.flatMap (Record.shown options) = [[]]) ∧
      (meets options Options.names → split.2.1.store.text = whole.state.store.text) := by
  intro joined split whole
  let muted := (rs.takeWhile (Record.isMute options)).flatMap (Record.shown options)
  let left := (rs.dropWhile (Record.isMute options)).flatMap (Record.shown options)
  obtain ⟨t, hsplit, ht⟩ := (shows_start context options).runs_of_nil hrs
  obtain ⟨u, hwhole, hu⟩ := (shows_start context options).run nofun (Record.isData_together hrs)
  rw [List.nil_append, Record.shown_together] at hu
  have hsplit' : split.2.1.store.text = joined left := by
    rw [show split.2.1 = t from congrArg (·.2.1) hsplit, ht.text]
  have hwhole' : whole.state.store.text = joined (rs.flatMap (Record.shown options)) := by
    rw [show whole.state = u from congrArg Visited.state hwhole, hu.text]
  have hall : rs.flatMap (Record.shown options) = muted ++ left := by
    rw [← List.flatMap_append, List.takeWhile_append_dropWhile]
  have hiff : split.2.1.store.text = whole.state.store.text ↔
      muted = [] ∨ rs.flatMap (Record.shown options) = [[]] := by
    rw [hsplit', hwhole', String.ofList_inj, hall, intercalate_eq_append_iff]
  refine ⟨congrArg Prod.fst hsplit, congrArg Visited.result hwhole, hwhole', hsplit', hiff, ?_⟩
  intro hnames
  refine hiff.mpr (.inl (List.flatMap_eq_nil_iff.mpr ?_))
  intro r hr
  exact Record.shown_of_isMute hnames (List.mem_takeWhile_imp hr)

/-- An empty text and a number. -/
def apart : List Record :=
  [.strict [.leaf "note" .text ""], .strict [.leaf "id" .u8 1]]

/-- The other way round, the empty text has its separator in two runs as in one. -/
theorem split_eq_together_reversed :
    let rs := apart.reverse
    let split := performAll (rs.map .run) (start .storage 0)
    (∀ r ∈ rs, r.isData) ∧ split.1 = rs.map (.ran (.ok ())) ∧
      split.2.1.store.text = (run (Record.together rs) (start .storage 0)).state.store.text ∧
      split.2.1.store.text = "1 " := by
  have hdata : ∀ r ∈ apart.reverse, r.isData := by decide
  obtain ⟨hreplies, -, -, -, hiff, -⟩ := split_eq_together_iff .storage 0 hdata
  exact ⟨hdata, hreplies, hiff.mpr (.inl rfl), rfl⟩

/-- Without labels, one run shows a separator between the two, and two runs show none. -/
theorem split_separator_lost :
    (∀ r ∈ apart, r.isPlain) ∧
      apart.flatMap (Record.shown 0) = [[], ['1']] ∧
      (run (Record.together apart) (start .storage 0)).state.store.text = " 1" ∧
      (performAll (apart.map .run) (start .storage 0)).2.1.store.text = "1" := by
  decide +kernel

end Dump

end RecordCodec
