import RecordCodec.Bytes

/-!
# UTF-8 read strictly and leniently

A text field must be well-formed UTF-8, and reading it is all or nothing (`ofUtf8?`). A text dump
shows arbitrary byte blocks, so there ill-formed input is shown as U+FFFD, once for every maximal
run of bytes that starts a well-formed sequence and then breaks off (`lossyUtf8`).

## Main definitions

* `utf8 s` — the bytes of a text.
* `ofUtf8? bs` — the text whose bytes these are, if there is one.
* `lossyUtf8 bs` — a text for any bytes.

`lossyUtf8` walks the bytes one at a time with the number of bytes that the last sequence still
covers, so that it recurses on the list itself; `Utf8.sequence` looks ahead to say how far a
sequence reaches.
-/

namespace RecordCodec

/-- The UTF-8 bytes of a text. -/
def utf8 (s : String) : Bytes :=
  s.toByteArray.data.toList

/-- The text with these bytes, if they are well-formed UTF-8. -/
def ofUtf8? (bs : Bytes) : Option String :=
  String.fromUTF8? ⟨bs.toArray⟩

namespace Utf8

/-- What a first byte above 0x7F announces: how many bytes follow, and the range of the next one.
The range excludes overlong forms, surrogates and numbers past U+10FFFF; any later byte is in
0x80–0xBF. -/
def announced? (b : UInt8) : Option (Nat × UInt8 × UInt8) :=
  if 0xC2 ≤ b ∧ b ≤ 0xDF then some (1, 0x80, 0xBF)
  else if b = 0xE0 then some (2, 0xA0, 0xBF)
  else if b = 0xED then some (2, 0x80, 0x9F)
  else if 0xE1 ≤ b ∧ b ≤ 0xEF then some (2, 0x80, 0xBF)
  else if b = 0xF0 then some (3, 0x90, 0xBF)
  else if 0xF1 ≤ b ∧ b ≤ 0xF3 then some (3, 0x80, 0xBF)
  else if b = 0xF4 then some (3, 0x80, 0x8F)
  else none

/-- The longest start of `bs`, of at most `n` bytes, whose first byte is between `low` and `high`
and whose other bytes are in 0x80–0xBF. -/
def continuation (n : Nat) (low high : UInt8) (bs : Bytes) : Bytes :=
  match n, bs with
  | 0, _ => []
  | _, [] => []
  | n + 1, b :: rest =>
    if low ≤ b ∧ b ≤ high then b :: continuation n 0x80 0xBF rest else []

/-- The number that a sequence of `n + 1` bytes spells: the first byte gives its low `6 - n` bits,
every other one six bits. -/
def scalar (n : Nat) (first : UInt8) (rest : Bytes) : Nat :=
  rest.foldl (fun k b => 64 * k + b.toNat % 64) (first.toNat % (64 >>> n))

/-- The character that a byte string starts with, U+FFFD where it starts with none, and the number
of bytes that it stands for beyond the first. -/
def sequence (first : UInt8) (rest : Bytes) : Char × Nat :=
  if first < 0x80 then (Char.ofNat first.toNat, 0)
  else
    match announced? first with
    | none => ('\uFFFD', 0)
    | some (n, low, high) =>
      let tail := continuation n low high rest
      (if tail.length = n then Char.ofNat (scalar n first tail) else '\uFFFD', tail.length)

/-- The characters of a byte string whose first `covered` bytes belong to a character already
given. -/
def characters : Nat → Bytes → List Char
  | _, [] => []
  | covered + 1, _ :: rest => characters covered rest
  | 0, b :: rest =>
    let (c, more) := sequence b rest
    c :: characters more rest

end Utf8

/-- The text of a byte string in which every maximal ill-formed run reads as U+FFFD. -/
def lossyUtf8 (bs : Bytes) : String :=
  String.ofList (Utf8.characters 0 bs)

/-! ### Strict reading and writing are inverse -/

@[simp] theorem ofUtf8?_utf8 (s : String) : ofUtf8? (utf8 s) = some s := by
  simp only [ofUtf8?, utf8, Array.toArray_toList]
  rw [String.fromUTF8?, dif_pos s.isValidUTF8]
  rfl

theorem utf8_of_ofUtf8? {bs : Bytes} {s : String} (h : ofUtf8? bs = some s) : utf8 s = bs := by
  rw [ofUtf8?, String.fromUTF8?] at h
  split at h
  · obtain rfl := Option.some.inj h
    rfl
  · exact absurd h nofun

end RecordCodec
