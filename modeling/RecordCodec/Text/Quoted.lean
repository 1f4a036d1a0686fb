import RecordCodec.Text.Hex

/-!
# Quoted characters and strings

Two notations that messages and schema texts need: one byte as a quoted character, where whatever
does not print is escaped, and a string as a JSON string, where only what JSON forbids is escaped.
-/

namespace RecordCodec.Quoted

/-- The hexadecimal digits of a byte, without a leading zero. -/
def shortHex (b : UInt8) : String :=
  if b < 16 then Hex.text [b] |>.drop 1 |>.toString else Hex.text [b]

/-- The byte, read as the character of that number, prints as itself: it is no control character,
no no-break space and no soft hyphen. -/
def prints (b : UInt8) : Bool :=
  (0x20 ≤ b && b < 0x7F) || (0xA0 < b && b != 0xAD)

/-- The character between single quotes, before the quotes are put on. -/
def escapedByte (b : UInt8) : String :=
  if b = 0 then "\\0"
  else if b = 9 then "\\t"
  else if b = 10 then "\\n"
  else if b = 13 then "\\r"
  else if b = 39 then "\\'"
  else if b = 92 then "\\\\"
  else if prints b then String.singleton (Char.ofNat b.toNat)
  else "\\u\x7b" ++ shortHex b ++ "\x7d"

/-- A byte as a quoted character. -/
def byte (b : UInt8) : String :=
  "'" ++ escapedByte b ++ "'"

/-- A character inside a JSON string. -/
def escapedChar (c : Char) : String :=
  if c = '"' then "\\\""
  else if c = '\\' then "\\\\"
  else if c = '\x08' then "\\b"
  else if c = '\x0c' then "\\f"
  else if c = '\n' then "\\n"
  else if c = '\r' then "\\r"
  else if c = '\t' then "\\t"
  else if c.toNat < 0x20 then "\\u00" ++ Hex.text [UInt8.ofNat c.toNat]
  else String.singleton c

/-- A text as a JSON string. -/
def json (s : String) : String :=
  "\"" ++ String.join (s.toList.map escapedChar) ++ "\""

end RecordCodec.Quoted
