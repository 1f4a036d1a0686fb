import Mathlib.Data.List.Forall2
import RecordCodec.Proofs.Separation
import RecordCodec.Proofs.Text.Lossy

/-!
# What a dump shows

A dump is put together by adding a separator behind every value and taking the last one off, by a
look at the last character. What is meant is simpler: the texts of the leaves, with separators
between them. The two agree whatever the values are, because the character that is taken off is
always one that was added.

The texts are said here over the tree of a record, without codecs and without stops: a nested record
is its fields, and a sequence is its count and then its items. Bytes are shown by the rule of
`Utf8.Shows`.

One text is not always what is meant. A count is shown as the 32-bit number that it is visited as,
so a sequence of 2³² items or more shows too low a count. A lower count has no more digits than a
higher one, so no other count can make up for it: the dump is wrong just if some count is.

## Main definitions

* `Kind.rendered`, `Signed.rendered` — the texts of values.
* `Record.rendered` — the texts of the leaves of a record, in their order.

## Main results

* `Record.rendered_eq` — they are what a visit comes upon, with counts that wrap around.
* `Record.rendered_eq_iff` — the counts can be told from the numbers of items.
* `Record.dump_eq_join_iff` — the dump of a record.
* `Record.dump_miscounts` — the first number of items that is not shown.
-/

namespace RecordCodec

/-! ### Values -/

/-- The text of a value: a number in decimal, a truth value as a word, a text as it is, and bytes as
the text that they come nearest to. -/
def Kind.rendered : (k : Kind) → k.Value → String
  | .u32, v => v.toNat.repr
  | .u16, v => v.toNat.repr
  | .u8, v => v.toNat.repr
  | .bool, true => "true"
  | .bool, false => "false"
  | .fixed, bs => lossyUtf8 bs
  | .block _, b => lossyUtf8 b.toBytes
  | .text, s => s

/-- The number of values of a width. -/
def Signed.size : Signed → Nat
  | .i32 => UInt32.size
  | .i16 => UInt16.size
  | .i8 => UInt8.size

/-- The integer that a signed value is. -/
def Signed.toInt : (w : Signed) → w.Value → Int
  | .i32, v => v.toInt
  | .i16, v => v.toInt
  | .i8, v => v.toInt

/-- The text of a signed value: in decimal, the number from 0 up that has the same remainder by the
number of values. -/
def Signed.rendered (w : Signed) (v : w.Value) : String :=
  (w.toInt v % w.size).toNat.repr

theorem Kind.valueText_eq (k : Kind) (v : k.Value) : Dump.valueText k v = k.rendered v := by
  cases k with
  | bool => cases v <;> rfl
  | u32 | u16 | u8 | fixed | block flags | text => rfl

/-- An integer that is the balanced remainder of a number has the remainder that the number has. -/
theorem toNat_emod_of_eq_bmod {i : Int} {n size : Nat} (hi : i = (n : Int).bmod size)
    (h : n < size) : (i % size).toNat = n := by
  rw [hi, Int.bmod_emod, Int.emod_eq_of_lt (Int.natCast_nonneg n) (Int.ofNat_lt.mpr h),
    Int.toNat_natCast]

/-- A signed value travels as the number that it is shown as. -/
theorem Signed.valueText_toCarrier (w : Signed) (v : w.Value) :
    Dump.valueText w.carrier (w.toCarrier v) = w.rendered v := by
  rw [Kind.valueText_eq, Signed.rendered]
  cases w with
  | i32 =>
    have hint : v.toInt = Int.bmod v.toUInt32.toNat UInt32.size := v.toBitVec.toInt_eq_toNat_bmod
    exact congrArg Nat.repr (toNat_emod_of_eq_bmod hint v.toUInt32.toNat_lt).symm
  | i16 =>
    have hint : v.toInt = Int.bmod v.toUInt16.toNat UInt16.size := v.toBitVec.toInt_eq_toNat_bmod
    exact congrArg Nat.repr (toNat_emod_of_eq_bmod hint v.toUInt16.toNat_lt).symm
  | i8 =>
    have hint : v.toInt = Int.bmod v.toUInt8.toNat UInt8.size := v.toBitVec.toInt_eq_toNat_bmod
    exact congrArg Nat.repr (toNat_emod_of_eq_bmod hint v.toUInt8.toNat_lt).symm

/-! ### Records -/

/-- The text of a leaf: the text of its value, behind its name if names are asked for. -/
def named (options : Mask) (name value : String) : String :=
  if meets options Options.names then name ++ "=" ++ value else value

/-- What a visit makes of a number of items: a 32-bit number. -/
def wrapped (n : Nat) : Nat :=
  n % UInt32.size

mutual

/-- The texts of the leaves of a field. A sequence of `n` items shows the number `count n`. -/
def Field.rendered (count : Nat → Nat) (options : Mask) : Field → List String
  | .leaf name kind v => [named options name (kind.rendered v)]
  | .signed name width v => [named options name (width.rendered v)]
  | .nested _ body => body.rendered count options
  | .sequence name items _ =>
    named options name (count items.length).repr :: itemsRendered count options items
  | .guarded _ _ | .failing _ | .raising _ | .recovering _ | .watching _ => []

/-- The texts of the leaves of a record. -/
def Record.rendered (count : Nat → Nat) (options : Mask) : Record → List String
  | .strict fields | .lenient fields _ => fieldsRendered count options fields

/-- The texts of the leaves of fields. -/
def fieldsRendered (count : Nat → Nat) (options : Mask) : List Field → List String
  | [] => []
  | f :: fs => f.rendered count options ++ fieldsRendered count options fs

/-- The texts of the leaves of items. -/
def itemsRendered (count : Nat → Nat) (options : Mask) : List Record → List String
  | [] => []
  | r :: rs => r.rendered count options ++ itemsRendered count options rs

end

/-- The leaves along stops, as they are shown. -/
def shownAlong (options : Mask) (ss : List Stop) : List (List Char) :=
  (ss.filterMap Stop.leaf?).map (Leaf.shown options)

section

variable {options : Mask}

theorem shownAlong_append (ss us : List Stop) :
    shownAlong options (ss ++ us) = shownAlong options ss ++ shownAlong options us := by
  rw [shownAlong, List.filterMap_append, List.map_append, shownAlong, shownAlong]

theorem shownAlong_close (ss : List Stop) :
    shownAlong options (ss ++ [.close]) = shownAlong options ss := by
  rw [shownAlong_append]
  exact List.append_nil _

theorem shown_eq (name : String) (kind : Kind) (v : kind.Value) :
    Leaf.shown options ⟨name, kind, v⟩ =
      (named options name (Dump.valueText kind v)).toList := by
  rw [Leaf.shown, Dump.label, named]
  by_cases h : meets options Options.names
  · rw [if_pos h, if_pos h, String.toList_append, String.toList_append]
    rfl
  · rw [if_neg h, if_neg h, List.nil_append]

mutual

theorem Field.rendered_eq : ∀ f : Field,
    (f.rendered wrapped options).map String.toList = shownAlong options f.stops
  | .leaf name kind v => by
    rw [Field.rendered, ← Kind.valueText_eq, List.map_singleton, ← shown_eq]
    rfl
  | .signed name width v => by
    rw [Field.rendered, ← Signed.valueText_toCarrier, List.map_singleton, ← shown_eq]
    rfl
  | .nested _ body => by
    rw [Field.rendered, Field.stops, shownAlong_close]
    exact Record.rendered_eq body
  | .sequence name items blank => by
    have hcount : Leaf.shown options ⟨name, .u32, UInt32.ofNat items.length⟩ =
        (named options name (wrapped items.length).repr).toList := by
      rw [shown_eq, Kind.valueText_eq, Kind.rendered, UInt32.toNat_ofNat', wrapped, UInt32.size]
    rw [Field.rendered, List.map_cons, itemsRendered_eq items, ← hcount]
    rfl
  | .guarded _ _ | .failing _ | .raising _ | .recovering _ | .watching _ => rfl

/-- **The texts of a record** are those of the leaves that a visit comes upon, if the counts among
them wrap around as the counts of a visit do. -/
theorem Record.rendered_eq : ∀ r : Record,
    (r.rendered wrapped options).map String.toList = shownAlong options r.stops
  | .strict fields => fieldsRendered_eq fields
  | .lenient fields _ => fieldsRendered_eq fields

theorem fieldsRendered_eq : ∀ fs : List Field,
    (fieldsRendered wrapped options fs).map String.toList =
      shownAlong options (fieldStops fs)
  | [] => rfl
  | f :: fs => by
    rw [fieldsRendered, fieldStops, shownAlong_append, List.map_append, Field.rendered_eq f,
      fieldsRendered_eq fs]

theorem itemsRendered_eq : ∀ rs : List Record,
    (itemsRendered wrapped options rs).map String.toList =
      shownAlong options (itemStops rs)
  | [] => rfl
  | r :: rs => by
    rw [itemsRendered, itemStops, shownAlong_append, shownAlong_close, List.map_append,
      Record.rendered_eq r, itemsRendered_eq rs]

end

end

/-! ### Lower counts are not longer -/

/-- No text is longer than the one in the same place. -/
def Shorter (texts more : List String) : Prop :=
  List.Forall₂ (fun text next => text.length ≤ next.length) texts more

theorem Shorter.append {texts more texts' more' : List String} (h : Shorter texts more)
    (h' : Shorter texts' more') : Shorter (texts ++ texts') (more ++ more') :=
  List.rel_append h h'

theorem length_repr_le {m n : Nat} (h : m ≤ n) : m.repr.length ≤ n.repr.length := by
  have hten : 1 < 10 := by decide
  have hdigits : 0 < (Nat.toDigits 10 n).length := Nat.length_toDigits_pos
  have hn := (Nat.length_toDigits_le_iff hten hdigits).mp (Nat.le_refl _)
  rw [Nat.repr_eq_ofList_toDigits, Nat.repr_eq_ofList_toDigits, String.length_ofList,
    String.length_ofList]
  exact (Nat.length_toDigits_le_iff hten hdigits).mpr (Nat.lt_of_le_of_lt h hn)

theorem length_named_le {options : Mask} {name text next : String}
    (h : text.length ≤ next.length) :
    (named options name text).length ≤ (named options name next).length := by
  rw [named, named]
  split
  · rw [String.length_append, String.length_append (name ++ "=")]
    omega
  · exact h

section

variable {count count' : Nat → Nat} {options : Mask}

mutual

theorem Field.rendered_shorter (h : ∀ n, count n ≤ count' n) : ∀ f : Field,
    Shorter (f.rendered count options) (f.rendered count' options)
  | .leaf _ _ _ | .signed _ _ _ => .cons (Nat.le_refl _) .nil
  | .nested _ body => Record.rendered_shorter h body
  | .sequence _ items _ =>
    .cons (length_named_le (length_repr_le (h items.length))) (itemsRendered_shorter h items)
  | .guarded _ _ | .failing _ | .raising _ | .recovering _ | .watching _ => .nil

/-- With lower counts, the texts of a record are no longer. -/
theorem Record.rendered_shorter (h : ∀ n, count n ≤ count' n) : ∀ r : Record,
    Shorter (r.rendered count options) (r.rendered count' options)
  | .strict fields => fieldsRendered_shorter h fields
  | .lenient fields _ => fieldsRendered_shorter h fields

theorem fieldsRendered_shorter (h : ∀ n, count n ≤ count' n) : ∀ fs : List Field,
    Shorter (fieldsRendered count options fs) (fieldsRendered count' options fs)
  | [] => .nil
  | f :: fs => (Field.rendered_shorter h f).append (fieldsRendered_shorter h fs)

theorem itemsRendered_shorter (h : ∀ n, count n ≤ count' n) : ∀ rs : List Record,
    Shorter (itemsRendered count options rs) (itemsRendered count' options rs)
  | [] => .nil
  | r :: rs => (Record.rendered_shorter h r).append (itemsRendered_shorter h rs)

end

end

section

variable {texts more : List String} (sep : String)

theorem Shorter.length_intercalate_le (h : Shorter texts more) :
    (sep.intercalate texts).length ≤ (sep.intercalate more).length := by
  induction h with
  | nil => exact Nat.le_refl _
  | cons hle hrest ih =>
    cases hrest with
    | nil => simpa using hle
    | cons hle' hrest' =>
      simp only [String.intercalate_cons_cons, String.length_append] at ih ⊢
      omega

/-- **Shorter texts join to other texts**, as every part that is shorter makes the whole shorter. -/
theorem Shorter.eq_of_intercalate_eq (h : Shorter texts more)
    (hsame : sep.intercalate texts = sep.intercalate more) : texts = more := by
  induction h with
  | nil => rfl
  | @cons text next texts more hle hrest ih =>
    have hjoined := Shorter.length_intercalate_le sep hrest
    cases hrest with
    | nil => simpa using hsame
    | cons hle' hrest' =>
      simp only [String.intercalate_cons_cons, String.append_assoc] at hsame
      have hlength := congrArg String.length hsame
      simp only [String.length_append] at hlength
      have htext : text.toList.length = next.toList.length := by
        rw [String.length_toList, String.length_toList]
        omega
      have hlists := congrArg String.toList hsame
      simp only [String.toList_append] at hlists
      obtain ⟨hfirst, hlater⟩ := List.append_inj hlists htext
      rw [String.toList_inj.mp hfirst, ih (String.toList_inj.mp (List.append_cancel_left hlater))]

end

/-! ### Wrong counts show -/

theorem named_inj {options : Mask} {name text next : String} :
    named options name text = named options name next ↔ text = next := by
  rw [named, named]
  split
  · simp [← String.toList_inj]
  · exact Iff.rfl

theorem wrapped_le (n : Nat) : wrapped n ≤ id n :=
  Nat.mod_le n UInt32.size

theorem repr_wrapped_eq_iff {n : Nat} : (wrapped n).repr = n.repr ↔ n < UInt32.size := by
  rw [Nat.repr_eq_ofList_toDigits, Nat.repr_eq_ofList_toDigits, String.ofList_inj]
  constructor
  · intro hsame
    have hvalue := congrArg (Nat.ofDigitChars 10 · 0) hsame
    simp only [Nat.ofDigitChars_ten_toDigits] at hvalue
    rw [← hvalue]
    exact Nat.mod_lt n (by decide)
  · intro hless
    rw [wrapped, Nat.mod_eq_of_lt hless]

theorem Shorter.append_inj {texts more texts' more' : List String} (h : Shorter texts more) :
    texts ++ texts' = more ++ more' ↔ texts = more ∧ texts' = more' := by
  constructor
  · exact fun hsame => List.append_inj hsame h.length_eq
  · rintro ⟨rfl, rfl⟩
    rfl

section

variable {options : Mask}

mutual

theorem Field.rendered_eq_iff : ∀ {f : Field}, f.isData →
    (f.rendered wrapped options = f.rendered id options ↔ f.everySequence fewEnough)
  | .leaf _ _ _, _ | .signed _ _ _, _ => iff_of_true rfl rfl
  | .nested _ body, hf => Record.rendered_eq_iff hf
  | .sequence _ items _, hf => by
    rw [Field.rendered, Field.rendered, List.cons.injEq, named_inj, id, repr_wrapped_eq_iff,
      itemsRendered_eq_iff hf, Field.everySequence, Bool.and_eq_true, fewEnough,
      decide_eq_true_iff]
  | .failing _, _ | .raising _, _ | .recovering _, _ | .watching _, _ => iff_of_true rfl rfl

/-- **The counts are right** just if every sequence has fewer than 2³² items. -/
theorem Record.rendered_eq_iff : ∀ {r : Record}, r.isData →
    (r.rendered wrapped options = r.rendered id options ↔ r.everySequence fewEnough)
  | .strict _, hr => fieldsRendered_eq_iff hr

theorem fieldsRendered_eq_iff : ∀ {fs : List Field}, fieldsData fs →
    (fieldsRendered wrapped options fs = fieldsRendered id options fs ↔
      everySequenceOfFields fewEnough fs)
  | [], _ => iff_of_true rfl rfl
  | f :: fs, hfs => by
    obtain ⟨hf, hrest⟩ := Bool.and_eq_true_iff.mp hfs
    rw [fieldsRendered, fieldsRendered,
      (Field.rendered_shorter wrapped_le f).append_inj,
      Field.rendered_eq_iff hf, fieldsRendered_eq_iff hrest, everySequenceOfFields,
      Bool.and_eq_true]

theorem itemsRendered_eq_iff : ∀ {rs : List Record}, itemsData rs →
    (itemsRendered wrapped options rs = itemsRendered id options rs ↔
      everySequenceOfItems fewEnough rs)
  | [], _ => iff_of_true rfl rfl
  | r :: rs, hrs => by
    obtain ⟨hr, hrest⟩ := Bool.and_eq_true_iff.mp hrs
    rw [itemsRendered, itemsRendered,
      (Record.rendered_shorter wrapped_le r).append_inj,
      Record.rendered_eq_iff hr, itemsRendered_eq_iff hrest, everySequenceOfItems,
      Bool.and_eq_true]

end

end

/-! ### Dumps -/

/-- Texts on one line: between them is a dot if the options ask for dots, and a space otherwise. -/
def joined (options : Mask) (texts : List String) : String :=
  (if meets options Options.dots then "." else " ").intercalate texts

theorem joined_eq (options : Mask) (texts : List String) :
    joined options texts =
      String.ofList ([Dump.separatorOf options].intercalate (texts.map String.toList)) := by
  have hseparator : (if meets options Options.dots then "." else " ").toList =
      [Dump.separatorOf options] := by
    rw [Dump.separatorOf]
    split <;> rfl
  rw [joined, ← hseparator, ← String.toList_intercalate, String.ofList_toList]

/-- **A dump joins the texts of leaves**, with counts that wrap around. -/
theorem Record.result_dump {r : Record} (hr : r.isData) (options : Mask) :
    (r.dump options).result = .ok (joined options (r.rendered wrapped options)) := by
  obtain ⟨t, hrun, ht⟩ := (Dump.shows_start .storage options).run nofun hr
  rw [List.nil_append] at ht
  rw [joined_eq, Record.rendered_eq, Record.dump, Report.ofRun, hrun]
  exact congrArg Except.ok ht.text

/-- **The dump of a record** of data is the texts of its leaves, in the order of visits, with one
separator between any two of them, whatever the texts are made of. The count of a sequence is shown
as the 32-bit number that it is visited as, so the dump tells the numbers of items just if every
sequence has fewer than 2³² of them. Bytes are shown as the characters that they are, and as U+FFFD
where they are broken off. -/
theorem Record.dump_eq_join_iff {r : Record} (hr : r.isData) (options : Mask) :
    (r.dump options).result = .ok (joined options (r.rendered wrapped options)) ∧
      ((r.dump options).result = .ok (joined options (r.rendered id options)) ↔
        r.everySequence fewEnough) ∧
      ∀ bs s, lossyUtf8 bs = s ↔ Utf8.Shows bs s.toList := by
  refine ⟨Record.result_dump hr options, ?_, fun _ _ => lossyUtf8_eq_iff⟩
  rw [Record.result_dump hr options, Except.ok.injEq, ← Record.rendered_eq_iff hr]
  constructor
  · exact (Record.rendered_shorter wrapped_le r).eq_of_intercalate_eq _
  · exact congrArg (joined options)

/-- Values that end in the separator, consist of it, or are empty; a negative number, a nested
record, a sequence with an item that shows nothing, and a block that is not UTF-8: a character of
three bytes breaks off after two, and no character starts with the last byte. -/
theorem Record.dump_eq_join_ill_formed :
    let r := strict [.leaf "a" .text "x.", .leaf "b" .text "", .signed "c" .i8 (-1),
      .nested "d" (strict [.leaf "e" .bool true]),
      .sequence "f" [strict [], strict [.leaf "g" .text "."]] (strict []),
      .leaf "h" (.block 0) (.view [0x61, 0xE2, 0x82, 0x62, 0xFF])]
    r.isData ∧ r.everySequence fewEnough ∧
      (r.dump Options.dots).result = .ok "x...255.true.2...a\uFFFDb\uFFFD" := by
  intro r
  have hr : r.isData := by decide
  have hfew : r.everySequence fewEnough := by decide
  have hjoin : joined Options.dots (r.rendered id Options.dots) =
      "x...255.true.2...a\uFFFDb\uFFFD" := by decide +kernel
  refine ⟨hr, hfew, ?_⟩
  rw [(Record.dump_eq_join_iff hr Options.dots).2.1.mpr hfew, hjoin]

/-- A record of a sequence of items that have no fields. -/
def Record.crowd (n : Nat) : Record :=
  .strict [.sequence "items" (List.replicate n (.strict [])) (.strict [])]

theorem Record.isPlain_crowd (n : Nat) : (crowd n).isPlain := by
  have hitems : itemsPlain (.strict []) (List.replicate n (.strict [])) := by
    induction n with
    | zero => rfl
    | succ n ih =>
      rw [List.replicate_succ, itemsPlain, ih]
      rfl
  simp [crowd, isPlain, fieldsPlain, Field.isPlain, hitems]

/-- Nothing is shown of a crowd but how many there are. -/
theorem Record.rendered_crowd (count : Nat → Nat) (n : Nat) :
    (crowd n).rendered count 0 = [(count n).repr] := by
  have hitems : itemsRendered count 0 (List.replicate n (.strict [])) = [] := by
    induction n with
    | zero => rfl
    | succ n ih =>
      rw [List.replicate_succ, itemsRendered, ih]
      rfl
  rw [crowd, Record.rendered, fieldsRendered, Field.rendered, hitems, List.length_replicate]
  rfl

/-- The first number of items that a dump does not show. It shows zero. -/
theorem Record.dump_miscounts :
    (crowd UInt32.size).isPlain ∧ ((crowd UInt32.size).dump 0).result = .ok "0" ∧
      joined 0 ((crowd UInt32.size).rendered id 0) = "4294967296" := by
  have hplain := isPlain_crowd UInt32.size
  refine ⟨hplain, ?_, ?_⟩
  · rw [result_dump (isData_of_isPlain hplain), rendered_crowd]
    decide +kernel
  · rw [rendered_crowd]
    decide +kernel

end RecordCodec
