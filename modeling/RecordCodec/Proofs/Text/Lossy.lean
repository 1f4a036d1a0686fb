import Mathlib.Data.List.Basic
import Mathlib.Tactic.SplitIfs
import RecordCodec.Text.Utf8

/-!
# What bytes show as text

Bytes need not be UTF-8 to be shown. Where they are, they show their characters. Where no character
can be read, as many bytes as could still have been the start of one are given up together, or one
byte if no character starts with it. U+FFFD stands for them, and reading goes on behind them.

The rule is stated over the bytes of characters (`Utf8.Shows`). The reader goes by a table of first
bytes instead, and by ranges for the bytes that follow. The two come to the same because the table
is right: what it announces are just the characters of more than one byte.

## Main definitions

* `Utf8.Starts`, `Utf8.IsBroken` — how far bytes go that are not a character.
* `Utf8.Shows` — what bytes show.
* `Utf8.Continues`, `Utf8.IsSequence` — what the table announces.

## Main results

* `Utf8.IsSequence.encodes`, `Utf8.encoding_cases` — the table is right.
* `Utf8.Shows.unique` — bytes show one text.
* `lossyUtf8_eq_iff` — the reader gives this text.
* `lossyUtf8_utf8` — the bytes of a text show it.
-/

namespace RecordCodec

open String (utf8EncodeChar)

namespace Utf8

/-! ### The rule -/

/-- Some character has bytes that start with these. -/
def Starts (bs : Bytes) : Prop :=
  ∃ c, bs <+: utf8EncodeChar c

/-- No character can be read in front of `run ++ rest`, and `run` is what is given up of it: the
longest start of a character, or one byte if no character starts with it. -/
structure IsBroken (run rest : Bytes) : Prop where
  unreadable : ∀ c, ¬utf8EncodeChar c <+: run ++ rest
  nonempty : run ≠ []
  start : Starts run ∨ run.length = 1
  longest : ∀ b ∈ rest.head?, ¬Starts (run ++ [b])

/-- What bytes show: their characters, and U+FFFD for every run that is broken off. -/
inductive Shows : Bytes → List Char → Prop
  | nil : Shows [] []
  | char (c : Char) {rest : Bytes} {cs : List Char} :
    Shows rest cs → Shows (utf8EncodeChar c ++ rest) (c :: cs)
  | broken {run rest : Bytes} {cs : List Char} :
    IsBroken run rest → Shows rest cs → Shows (run ++ rest) ('\uFFFD' :: cs)

theorem Starts.mono {bs more : Bytes} (h : Starts more) (hbs : bs <+: more) : Starts bs := by
  obtain ⟨c, hc⟩ := h
  exact ⟨c, hbs.trans hc⟩

/-! ### The rule leaves no choice -/

/-- Bytes start with one character at most. -/
theorem encoding_unique {c d : Char} {rest more : Bytes}
    (h : utf8EncodeChar c ++ rest = utf8EncodeChar d ++ more) : c = d ∧ rest = more := by
  have hdecode (char : Char) (bs : Bytes) :
      (utf8EncodeChar char ++ bs).toByteArray.utf8DecodeChar? 0 = some char := by
    rw [List.toByteArray_append]
    exact ByteArray.utf8DecodeChar?_utf8EncodeChar_append
  have hsame : c = d := by rw [← Option.some_inj, ← hdecode c rest, h, hdecode]
  rw [hsame] at h
  exact ⟨hsame, List.append_cancel_left h⟩

section

variable {run run' rest rest' : Bytes}

theorem IsBroken.length_le (h : IsBroken run rest) (h' : IsBroken run' rest')
    (hsame : run ++ rest = run' ++ rest') : run'.length ≤ run.length := by
  by_contra hless
  obtain ⟨more, rfl⟩ : run <+: run' :=
    List.prefix_of_prefix_length_le ⟨rest, hsame⟩ (List.prefix_append run' rest') (by omega)
  have hpos := List.length_pos_iff.mpr h.nonempty
  rw [List.append_assoc] at hsame
  have hrest : rest = more ++ rest' := List.append_cancel_left hsame
  cases more with
  | nil => simp at hless
  | cons b more =>
    rcases h'.start with hstart | hone
    · refine h.longest b (by rw [hrest]; rfl) (hstart.mono ?_)
      exact (List.prefix_append_right_inj run).mpr ⟨more, rfl⟩
    · rw [List.length_append, List.length_cons] at hone
      omega

theorem IsBroken.unique (h : IsBroken run rest) (h' : IsBroken run' rest')
    (hsame : run ++ rest = run' ++ rest') : run = run' ∧ rest = rest' :=
  List.append_inj hsame (Nat.le_antisymm (h'.length_le h hsame.symm) (h.length_le h' hsame))

end

/-- **Bytes show one text.** -/
theorem Shows.unique {bs : Bytes} {cs cs' : List Char} (h : Shows bs cs) (h' : Shows bs cs') :
    cs = cs' := by
  induction h generalizing cs' with
  | nil =>
    generalize hbs : ([] : Bytes) = bs at h'
    cases h' with
    | nil => rfl
    | char c _ => simp [String.utf8EncodeChar_ne_nil] at hbs
    | broken hrun _ => simp [hrun.nonempty] at hbs
  | @char c rest cs _ ih =>
    generalize hbs : utf8EncodeChar c ++ rest = bs at h'
    cases h' with
    | nil => simp [String.utf8EncodeChar_ne_nil] at hbs
    | char d hrest =>
      obtain ⟨rfl, rfl⟩ := encoding_unique hbs
      rw [ih hrest]
    | broken hrun _ => exact absurd ⟨rest, hbs⟩ (hrun.unreadable c)
  | @broken run rest cs hrun _ ih =>
    generalize hbs : run ++ rest = bs at h'
    cases h' with
    | nil => simp [hrun.nonempty] at hbs
    | char d hrest => exact absurd ⟨_, hbs.symm⟩ (hrun.unreadable d)
    | broken hrun' hrest =>
      obtain ⟨rfl, rfl⟩ := hrun.unique hrun' hbs
      rw [ih hrest]

/-! ### Bytes that follow a first byte -/

/-- Bytes that may follow one another: the first of them is between `low` and `high`, and the others
are in 0x80–0xBF. -/
def Continues (low high : UInt8) : Bytes → Prop
  | [] => True
  | b :: rest => (low ≤ b ∧ b ≤ high) ∧ Continues 0x80 0xBF rest

section

variable {n : Nat} {low high : UInt8} {run bs : Bytes}

theorem Continues.left {more : Bytes} (h : Continues low high (run ++ more)) :
    Continues low high run := by
  induction run generalizing low high with
  | nil => trivial
  | cons b run ih => exact ⟨h.1, ih h.2⟩

/-- What was begun can be finished. -/
theorem Continues.complete (h : Continues low high run) (hrange : low ≤ high)
    (hrun : run.length ≤ n) :
    ∃ more, (run ++ more).length = n ∧ Continues low high (run ++ more) := by
  induction n generalizing low high run with
  | zero => exact ⟨[], by simpa using hrun, by simpa using h⟩
  | succ n ih =>
    have hlater : (0x80 : UInt8) ≤ 0xBF := by decide
    cases run with
    | nil =>
      have hnone : Continues 0x80 0xBF [] := trivial
      obtain ⟨more, hlength, hmore⟩ := ih hnone hlater (Nat.zero_le n)
      exact ⟨low :: more, congrArg (· + 1) hlength, ⟨UInt8.le_refl low, hrange⟩, hmore⟩
    | cons b run =>
      obtain ⟨more, hlength, hmore⟩ := ih h.2 hlater (Nat.le_of_succ_le_succ hrun)
      exact ⟨more, congrArg (· + 1) hlength, h.1, hmore⟩

/-- A continuation is the longest there is. -/
theorem prefix_continuation_iff :
    run <+: continuation n low high bs ↔
      run <+: bs ∧ run.length ≤ n ∧ Continues low high run := by
  induction run generalizing n low high bs with
  | nil => simp [Continues]
  | cons b run ih =>
    match n, bs with
    | 0, bs => simp [continuation]
    | n + 1, [] => simp [continuation]
    | n + 1, c :: rest =>
      rw [continuation]
      split
      · next h =>
        rw [List.cons_prefix_cons, List.cons_prefix_cons, ih, Continues, List.length_cons]
        constructor
        · rintro ⟨rfl, hrun, hle, hrest⟩
          exact ⟨⟨rfl, hrun⟩, by omega, h, hrest⟩
        · rintro ⟨⟨rfl, hrun⟩, hle, -, hrest⟩
          exact ⟨rfl, hrun, by omega, hrest⟩
      · next h =>
        rw [List.prefix_nil, List.cons_prefix_cons, Continues]
        refine iff_of_false (List.cons_ne_nil b run) ?_
        rintro ⟨⟨rfl, -⟩, -, hb, -⟩
        exact h hb

end

/-! ### The table is right -/

/-- A first byte and the bytes that it announces, all of them. -/
def IsSequence (first : UInt8) (tail : Bytes) : Prop :=
  ∃ low high, announced? first = some (tail.length, low, high) ∧ Continues low high tail

theorem announced?_bounds {b low high : UInt8} {n : Nat}
    (h : announced? b = some (n, low, high)) : (n = 1 ∨ n = 2 ∨ n = 3) ∧ low ≤ high := by
  simp only [announced?] at h
  split_ifs at h <;> simp at h <;> obtain ⟨rfl, rfl, rfl⟩ := h <;> decide

section

variable {a b c d : UInt8}

theorem scalar_one (a b : UInt8) :
    scalar 1 a [b] = 64 * (a.toNat % 32) + b.toNat % 64 := rfl

theorem scalar_two (a b c : UInt8) :
    scalar 2 a [b, c] = 64 * (64 * (a.toNat % 16) + b.toNat % 64) + c.toNat % 64 := rfl

theorem scalar_three (a b c d : UInt8) :
    scalar 3 a [b, c, d] =
      64 * (64 * (64 * (a.toNat % 8) + b.toNat % 64) + c.toNat % 64) + d.toNat % 64 := rfl

-- of the sequences of one length, the table leaves out those that spell a number which fewer bytes
-- could spell, and those that spell the number of no character

theorem isSequence_pair_iff :
    IsSequence a [b] ↔
      (0xC2 ≤ a.toNat ∧ a.toNat ≤ 0xDF) ∧ (0x80 ≤ b.toNat ∧ b.toNat ≤ 0xBF) := by
  simp only [IsSequence, Continues, announced?, UInt8.le_iff_toNat_le, ← UInt8.toNat_inj,
    UInt8.toNat_ofNat, List.length_singleton]
  split_ifs <;> simp [and_assoc] <;> omega

theorem isSequence_triple_iff :
    IsSequence a [b, c] ↔
      (0xE0 ≤ a.toNat ∧ a.toNat ≤ 0xEF) ∧ (0x80 ≤ b.toNat ∧ b.toNat ≤ 0xBF) ∧
        (0x80 ≤ c.toNat ∧ c.toNat ≤ 0xBF) ∧ 0x800 ≤ scalar 2 a [b, c] ∧
          (scalar 2 a [b, c] < 0xD800 ∨ 0xDFFF < scalar 2 a [b, c]) := by
  simp only [IsSequence, Continues, announced?, UInt8.le_iff_toNat_le, ← UInt8.toNat_inj,
    UInt8.toNat_ofNat, List.length_cons, List.length_nil, scalar_two]
  split_ifs <;> simp [and_assoc] <;> omega

theorem isSequence_quadruple_iff :
    IsSequence a [b, c, d] ↔
      (0xF0 ≤ a.toNat ∧ a.toNat ≤ 0xF7) ∧ (0x80 ≤ b.toNat ∧ b.toNat ≤ 0xBF) ∧
        (0x80 ≤ c.toNat ∧ c.toNat ≤ 0xBF) ∧ (0x80 ≤ d.toNat ∧ d.toNat ≤ 0xBF) ∧
          0x10000 ≤ scalar 3 a [b, c, d] ∧ scalar 3 a [b, c, d] ≤ 0x10FFFF := by
  simp only [IsSequence, Continues, announced?, UInt8.le_iff_toNat_le, ← UInt8.toNat_inj,
    UInt8.toNat_ofNat, List.length_cons, List.length_nil, scalar_three]
  split_ifs <;> simp [and_assoc] <;> omega

theorem val_ofNat {n : Nat} (h : n.isValidChar) : (Char.ofNat n).val.toNat = n := by
  rw [Char.ofNat, dif_pos h]
  rfl

theorem ofNat_eq_of_mod {n : Nat} (b : UInt8) (h : n % 256 = b.toNat) : UInt8.ofNat n = b := by
  rw [← UInt8.toNat_inj, UInt8.toNat_ofNat', h]

/-- **What the table announces is a character**, the one whose number the bytes spell. -/
theorem IsSequence.encodes {tail : Bytes} (h : IsSequence a tail) :
    utf8EncodeChar (Char.ofNat (scalar tail.length a tail)) = a :: tail := by
  have hlength : tail.length = 1 ∨ tail.length = 2 ∨ tail.length = 3 := by
    obtain ⟨low, high, ha, -⟩ := h
    exact (announced?_bounds ha).1
  rw [utf8EncodeChar]
  rcases hlength with hone | htwo | hthree
  · obtain ⟨b, rfl⟩ := List.length_eq_one_iff.mp hone
    obtain ⟨ha, hb⟩ := isSequence_pair_iff.mp h
    have hv := scalar_one a b
    rw [hone, val_ofNat (.inl (by omega)), if_neg (by omega), if_pos (by omega), hv,
      ofNat_eq_of_mod a (by omega), ofNat_eq_of_mod b (by omega)]
  · obtain ⟨b, c, rfl⟩ := List.length_eq_two.mp htwo
    obtain ⟨ha, hb, hc, hlarge, hvalid⟩ := isSequence_triple_iff.mp h
    have hv := scalar_two a b c
    have hchar : (scalar 2 a [b, c]).isValidChar := by
      rw [Nat.isValidChar]
      omega
    rw [htwo, val_ofNat hchar, if_neg (by omega), if_neg (by omega), if_pos (by omega), hv,
      ofNat_eq_of_mod a (by omega), ofNat_eq_of_mod b (by omega),
      ofNat_eq_of_mod c (by omega)]
  · obtain ⟨b, c, d, rfl⟩ := List.length_eq_three.mp hthree
    obtain ⟨ha, hb, hc, hd, hlarge, hsmall⟩ := isSequence_quadruple_iff.mp h
    have hv := scalar_three a b c d
    rw [hthree, val_ofNat (.inr (by omega)), if_neg (by omega), if_neg (by omega),
      if_neg (by omega), hv, ofNat_eq_of_mod a (by omega),
      ofNat_eq_of_mod b (by omega), ofNat_eq_of_mod c (by omega),
      ofNat_eq_of_mod d (by omega)]

end

variable {first low high : UInt8} {n : Nat} {rest : Bytes}

/-- **A character is what the table announces**, unless it has one byte, below 0x80. -/
theorem encoding_cases {char : Char} {tail : Bytes} (h : utf8EncodeChar char = first :: tail) :
    first < 0x80 ∧ tail = [] ∨ IsSequence first tail := by
  have hvalid : char.val.toNat < 0xD800 ∨ 0xDFFF < char.val.toNat ∧ char.val.toNat < 0x110000 :=
    char.valid
  rw [utf8EncodeChar] at h
  generalize char.val.toNat = v at hvalid h
  by_cases hone : v ≤ 0x7F
  · rw [if_pos hone] at h
    obtain ⟨rfl, rfl⟩ := List.cons.inj h
    refine .inl ⟨?_, rfl⟩
    simp only [UInt8.lt_iff_toNat_lt, UInt8.toNat_ofNat', UInt8.toNat_ofNat]
    omega
  rw [if_neg hone] at h
  by_cases htwo : v ≤ 0x7FF
  · rw [if_pos htwo] at h
    obtain ⟨rfl, rfl⟩ := List.cons.inj h
    refine .inr (isSequence_pair_iff.mpr ?_)
    simp only [UInt8.toNat_ofNat']
    omega
  rw [if_neg htwo] at h
  by_cases hthree : v ≤ 0xFFFF
  · rw [if_pos hthree] at h
    obtain ⟨rfl, rfl⟩ := List.cons.inj h
    refine .inr (isSequence_triple_iff.mpr ?_)
    simp only [scalar_two, UInt8.toNat_ofNat']
    omega
  · rw [if_neg hthree] at h
    obtain ⟨rfl, rfl⟩ := List.cons.inj h
    refine .inr (isSequence_quadruple_iff.mpr ?_)
    simp only [scalar_three, UInt8.toNat_ofNat']
    omega

/-! ### Runs that are broken off -/

/-- A character in front of `first :: bs` is a sequence, unless it has one byte. -/
theorem isSequence_of_front {c : Char} {bs : Bytes} (hlarge : ¬first < 0x80)
    (h : utf8EncodeChar c <+: first :: bs) : ∃ tail, IsSequence first tail ∧ tail <+: bs := by
  rcases List.prefix_cons_iff.mp h with hnil | ⟨tail, hc, htail⟩
  · exact absurd hnil String.utf8EncodeChar_ne_nil
  · exact ⟨tail, (encoding_cases hc).resolve_left fun hone => hlarge hone.1, htail⟩

/-- A character that starts with `first :: bs` is a sequence, unless it has one byte. -/
theorem isSequence_of_starts {bs : Bytes} (hlarge : ¬first < 0x80) (h : Starts (first :: bs)) :
    ∃ more, IsSequence first (bs ++ more) := by
  obtain ⟨c, more, hmore⟩ := h
  exact ⟨more, (encoding_cases hmore.symm).resolve_left fun hone => hlarge hone.1⟩

theorem IsSequence.announced {tail : Bytes} (h : IsSequence first tail)
    (hfirst : announced? first = some (n, low, high)) :
    tail.length = n ∧ Continues low high tail := by
  obtain ⟨low', high', hfirst', htail⟩ := h
  obtain ⟨rfl, rfl, rfl⟩ : n = tail.length ∧ low = low' ∧ high = high' := by
    simpa [hfirst'] using hfirst.symm
  exact ⟨rfl, htail⟩

/-- A byte that no character starts with. -/
theorem isBroken_unannounced (hlarge : ¬first < 0x80) (hfirst : announced? first = none) :
    IsBroken [first] rest := by
  have hnone {tail : Bytes} : ¬IsSequence first tail := by
    rintro ⟨low, high, hsome, -⟩
    simp [hfirst] at hsome
  constructor
  · intro c h
    obtain ⟨tail, hsequence, -⟩ := isSequence_of_front hlarge h
    exact hnone hsequence
  · exact List.cons_ne_nil first []
  · exact .inr rfl
  · intro b _ h
    obtain ⟨more, hsequence⟩ := isSequence_of_starts hlarge h
    exact hnone hsequence

/-- A sequence that breaks off before all that was announced has come. -/
theorem isBroken_continuation (hlarge : ¬first < 0x80)
    (hfirst : announced? first = some (n, low, high)) {run more : Bytes}
    (hrun : continuation n low high (run ++ more) = run) (hshort : run.length ≠ n) :
    IsBroken (first :: run) more := by
  have hlongest {bs : Bytes} :
      bs <+: run ↔ bs <+: run ++ more ∧ bs.length ≤ n ∧ Continues low high bs := by
    rw [← prefix_continuation_iff, hrun]
  obtain ⟨-, hle, hcontinues⟩ := hlongest.mp (List.prefix_refl run)
  constructor
  · intro c h
    obtain ⟨tail, hsequence, htail⟩ := isSequence_of_front hlarge h
    obtain ⟨hlength, htail'⟩ := hsequence.announced hfirst
    have hinside := (hlongest.mpr ⟨htail, by omega, htail'⟩).length_le
    omega
  · exact List.cons_ne_nil first run
  · obtain ⟨rest, hlength, hrest⟩ := hcontinues.complete (announced?_bounds hfirst).2 hle
    have hsequence : IsSequence first (run ++ rest) := ⟨low, high, by rw [hlength, hfirst], hrest⟩
    refine .inl ⟨Char.ofNat (scalar (run ++ rest).length first (run ++ rest)), ?_⟩
    rw [hsequence.encodes]
    exact List.prefix_append (first :: run) rest
  · intro b hb h
    obtain ⟨rest, hsequence⟩ := isSequence_of_starts hlarge h
    obtain ⟨hlength, hrest⟩ := hsequence.announced hfirst
    obtain ⟨more, rfl⟩ := List.head?_eq_some_iff.mp hb
    have hle' : (run ++ [b]).length ≤ n := by
      rw [← hlength]
      exact (List.prefix_append (run ++ [b]) rest).length_le
    have hlonger := (hlongest.mpr ⟨by simp, hle', hrest.left⟩).length_le
    rw [List.length_append, List.length_singleton] at hlonger
    omega

/-! ### The reader follows the rule -/

/-- **What is read in front** is a character with its bytes, or U+FFFD for a run that is broken
off. -/
theorem sequence_cases (first : UInt8) (rest : Bytes) :
    ∃ run more, rest = run ++ more ∧ (sequence first rest).2 = run.length ∧
      (utf8EncodeChar (sequence first rest).1 = first :: run ∨
        (sequence first rest).1 = '\uFFFD' ∧ IsBroken (first :: run) more) := by
  rw [sequence]
  by_cases hsmall : first < 0x80
  · rw [if_pos hsmall]
    refine ⟨[], rest, rfl, rfl, .inl ?_⟩
    have hnumber : first.toNat < 128 := UInt8.lt_iff_toNat_lt.mp hsmall
    rw [utf8EncodeChar, val_ofNat (.inl (by omega)), if_pos (by omega), UInt8.ofNat_toNat]
  rw [if_neg hsmall]
  cases hfirst : announced? first with
  | none => exact ⟨[], rest, rfl, rfl, .inr ⟨rfl, isBroken_unannounced hsmall hfirst⟩⟩
  | some announced =>
    obtain ⟨n, low, high⟩ := announced
    obtain ⟨⟨more, hmore⟩, -, hcontinues⟩ :=
      prefix_continuation_iff.mp (List.prefix_refl (continuation n low high rest))
    refine ⟨continuation n low high rest, more, hmore.symm, rfl, ?_⟩
    by_cases hfull : (continuation n low high rest).length = n
    · have hsequence : IsSequence first (continuation n low high rest) :=
        ⟨low, high, by rw [hfull, hfirst], hcontinues⟩
      simp only [if_pos hfull]
      refine .inl ?_
      rw [← hsequence.encodes, hfull]
    · simp only [if_neg hfull]
      refine .inr ⟨trivial, isBroken_continuation hsmall hfirst ?_ hfull⟩
      rw [hmore]

theorem characters_eq_drop (covered : Nat) (bs : Bytes) :
    characters covered bs = characters 0 (bs.drop covered) := by
  induction covered generalizing bs with
  | zero => rfl
  | succ covered ih =>
    cases bs with
    | nil => rfl
    | cons b bs => exact ih bs

theorem shows_characters : ∀ bs : Bytes, Shows bs (characters 0 bs)
  | [] => .nil
  | first :: rest => by
    obtain ⟨run, more, rfl, hcovered, hsequence⟩ := sequence_cases first rest
    have hmore : Shows more (characters 0 more) := shows_characters more
    rw [characters]
    simp only [hcovered]
    rw [characters_eq_drop, List.drop_left]
    rcases hsequence with hchar | ⟨hchar, hbroken⟩
    · have hshows := hmore.char (sequence first (run ++ more)).1
      rwa [hchar] at hshows
    · rw [hchar]
      exact hmore.broken hbroken
  termination_by bs => bs.length

end Utf8

/-- **The lossy reading of bytes** is the text that they show. -/
theorem lossyUtf8_eq_iff {bs : Bytes} {s : String} : lossyUtf8 bs = s ↔ Utf8.Shows bs s.toList := by
  have hshows : Utf8.Shows bs (lossyUtf8 bs).toList := by
    rw [lossyUtf8, String.toList_ofList]
    exact Utf8.shows_characters bs
  constructor
  · rintro rfl
    exact hshows
  · intro h
    exact String.toList_inj.mp (hshows.unique h)

/-- **The bytes of a text** show it, so nothing is lost where the strict reading succeeds. -/
theorem lossyUtf8_utf8 (s : String) : lossyUtf8 (utf8 s) = s := by
  have hbytes : utf8 s = s.toList.flatMap utf8EncodeChar := by
    rw [utf8, ← String.utf8Encode_toList, List.utf8Encode, List.toList_data_toByteArray]
  rw [lossyUtf8_eq_iff, hbytes]
  induction s.toList with
  | nil => exact .nil
  | cons c cs ih => exact ih.char c

end RecordCodec
