/-!
# Heads

Every item starts with a head: an initial byte with the major type in its top three bits and the
additional info in its low five, then zero, one, two, four or eight bytes of argument.

* `Major` is the major type, `Major.ofInitial` reads it off an initial byte;
* `bigEndian`, `ofBigEndian` write and read an argument;
* `argumentSize` is the least number of argument bytes that holds a value, and a `HeadWidth` asks
  for at least so many;
* `headBytes` writes a head, `Head` is what reading one gives (`Wire/Scan.lean`).
-/

namespace CborSchema

/-- Bytes are a list: what is not read yet is a tail of the input. -/
abbrev Bytes := List UInt8

/-! ## 1. Major types -/

/-- The eight major types. -/
inductive Major where
  | unsigned
  | negative
  | bytes
  | text
  | array
  | map
  | tag
  | simple
  deriving DecidableEq, Repr

namespace Major

/-- The major type in the top three bits of an initial byte. -/
def ofInitial (byte : UInt8) : Major :=
  match byte >>> 5 with
  | 0 => .unsigned
  | 1 => .negative
  | 2 => .bytes
  | 3 => .text
  | 4 => .array
  | 5 => .map
  | 6 => .tag
  | _ => .simple

/-- The number of a major type. -/
def number : Major → UInt8
  | .unsigned => 0
  | .negative => 1
  | .bytes => 2
  | .text => 3
  | .array => 4
  | .map => 5
  | .tag => 6
  | .simple => 7

/-- The top three bits of an initial byte, the low five clear. -/
def bits (m : Major) : UInt8 := m.number <<< 5

/-- The name of a major type in messages. -/
def name : Major → String
  | .unsigned => "unsigned integer"
  | .negative => "negative integer"
  | .bytes => "byte string"
  | .text => "text string"
  | .array => "array"
  | .map => "map"
  | .tag => "tag"
  | .simple => "simple value"

/-- Whether additional info 31 is a head of this major type: an indefinite length, or the break
    code among the simple values. -/
def hasOpenForm : Major → Bool
  | .unsigned | .negative | .tag => false
  | .bytes | .text | .array | .map | .simple => true

/-- The initial byte of a major type and an additional info below 32. -/
def initial (m : Major) (info : UInt8) : UInt8 := m.bits ||| info

end Major

/-! ## 2. Arguments -/

/-- The `n` low bytes of a number, most significant first. -/
def bigEndian : Nat → Nat → Bytes
  | 0, _ => []
  | n + 1, v => UInt8.ofNat (v / Nat.pow 256 n) :: bigEndian n v

/-- The number that bytes spell, most significant first. -/
def ofBigEndian (bytes : Bytes) : Nat :=
  bytes.foldl (fun acc byte => acc * 256 + byte.toNat) 0

/-- The least number of argument bytes that holds a value; a value below 24 needs none. -/
def argumentSize (v : UInt64) : Nat :=
  if v < 24 then 0
  else if v < 0x100 then 1
  else if v < 0x10000 then 2
  else if v < 0x100000000 then 4
  else 8

/-- How many argument bytes an additional info announces, if it announces any. -/
def announcedSize : UInt8 → Option Nat
  | 24 => some 1
  | 25 => some 2
  | 26 => some 4
  | 27 => some 8
  | _ => none

/-- The least width a head may be written with. -/
inductive HeadWidth where
  | minimal
  | one
  | two
  | four
  | eight
  deriving DecidableEq, Repr

namespace HeadWidth

/-- The number of argument bytes a width asks for. -/
def size : HeadWidth → Nat
  | .minimal => 0
  | .one => 1
  | .two => 2
  | .four => 4
  | .eight => 8

/-- Whether a head of exactly this width holds a value; the minimal width adapts to every value. -/
def fits : HeadWidth → UInt64 → Bool
  | .minimal, _ => true
  | w, v => argumentSize v ≤ w.size

end HeadWidth

/-! ## 3. Heads -/

/-- A head as read: the argument is absent for an indefinite length and for the break code. -/
structure Head where
  major : Major
  info : UInt8
  arg : Option UInt64
  deriving DecidableEq, Repr

namespace Head

/-- Whether no argument came with the head. -/
def isIndefinite (h : Head) : Bool := h.arg.isNone

/-- Whether the head is the break code. -/
def isBreak (h : Head) : Bool := h.major == .simple && h.isIndefinite

end Head

/-- The head of a major type and a value, at least as wide as asked for. -/
def headBytes (m : Major) (v : UInt64) (w : HeadWidth) : Bytes :=
  match max w.size (argumentSize v) with
  | 0 => [m.initial v.toUInt8]
  | 1 => m.initial 24 :: bigEndian 1 v.toNat
  | 2 => m.initial 25 :: bigEndian 2 v.toNat
  | 4 => m.initial 26 :: bigEndian 4 v.toNat
  | _ => m.initial 27 :: bigEndian 8 v.toNat

/-- The head of an indefinite item. -/
def indefiniteHead (m : Major) : Bytes := [m.initial 31]

/-- The byte that closes an indefinite item. -/
def breakByte : UInt8 := 0xff

end CborSchema
