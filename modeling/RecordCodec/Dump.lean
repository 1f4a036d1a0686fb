import RecordCodec.Text.Utf8
import RecordCodec.Visit

/-!
# Text dumps

A dump shows the leaves of a record on one line, in the order of visits, with a separator between
them: a dot, or a space. With the option for names, `name=` stands before each value. Numbers are
decimal, and signed ones show as the unsigned numbers that they travel as; blocks are shown as
text, with U+FFFD for what is no text. Nested records and sequences add no marks of their own; the
count of a sequence is a leaf like any other.

Every value is followed by the separator while a run is under way, and a run ends by taking one
separator off the end. A run that follows another begins by putting it back, unless the dump is
empty by then.
-/

namespace RecordCodec

/-- The memory of a dump. The text is a list of characters, oldest first. -/
structure Dump where
  chars : List Char
  separator : Char
  deriving DecidableEq, Repr

namespace Dump

/-- The separator that the options ask for. -/
def separatorOf (options : Mask) : Char :=
  if meets options Options.dots then '.' else ' '

/-- A dump of nothing. -/
def start (context : Context) (options : Mask) : Traversal Dump :=
  .start .inspect context options ⟨[], separatorOf options⟩

/-- The text so far. -/
def text (d : Dump) : String :=
  String.ofList d.chars

/-- Adds characters at the end. -/
def add (cs : List Char) (d : Dump) : Dump :=
  { d with chars := d.chars ++ cs }

/-- What stands before the value of a leaf. -/
def label (options : Mask) (name : String) : List Char :=
  if meets options Options.names then name.toList ++ ['='] else []

/-- The text of a value. -/
def valueText : (kind : Kind) → kind.Value → String
  | .u32, v => toString v.toNat
  | .u16, v => toString v.toNat
  | .u8, v => toString v.toNat
  | .bool, v => if v then "true" else "false"
  | .fixed, bs => lossyUtf8 bs
  | .block _, b => lossyUtf8 b.toBytes
  | .text, s => s

/-- Adds one leaf and a separator. -/
def put (kind : Kind) (name : String) (v : kind.Value) : Act Dump Unit := do
  Act.check
  let t ← Act.state
  Act.modifyStore (add (label t.options name ++ (valueText kind v).toList ++ [t.store.separator]))

/-- Puts a separator after what an earlier run left. -/
def continued (d : Dump) : Dump :=
  if d.chars.isEmpty then d else d.add [d.separator]

/-- Takes one separator off the end. -/
def trimmed (d : Dump) : Dump :=
  if d.chars.getLast? = some d.separator then { d with chars := d.chars.dropLast } else d

instance : Codec Dump where
  visit kind name v := do
    put kind name v
    pure v
  openRun := Act.modifyStore continued
  closeRun := Act.modifyStore trimmed

end Dump

end RecordCodec
