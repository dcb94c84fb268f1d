import CborSchema.Wire.Head

/-!
# Written items

The bytes of the items without parts of their own: integers, truth values, null and definite
strings.

A negative integer `v` is written as `-1 - v` under its own major type, so both signs use the
full range of the argument.
-/

namespace CborSchema

/-- The simple values that stand for false, true and null. -/
def simpleFalse : UInt64 := 20

@[inherit_doc simpleFalse] def simpleTrue : UInt64 := 21

@[inherit_doc simpleFalse] def simpleNull : UInt64 := 22

/-- The byte null is written as. -/
def nullByte : UInt8 := 0xf6

/-- The argument of an integer's head: the integer itself, or `-1 - v` for a negative one. -/
def wireMagnitude (v : Int64) : UInt64 := if 0 ≤ v then v.toUInt64 else (-1 - v).toUInt64

/-- An integer under a head at least as wide as asked for. -/
def intBytes (v : Int64) (w : HeadWidth) : Bytes :=
  headBytes (if 0 ≤ v then .unsigned else .negative) (wireMagnitude v) w

/-- An unsigned integer under the shortest head. -/
def uintBytes (v : UInt64) : Bytes := headBytes .unsigned v .minimal

/-- A tag under the shortest head. -/
def tagBytes (tag : UInt64) : Bytes := headBytes .tag tag .minimal

/-- A truth value. -/
def boolBytes (b : Bool) : Bytes :=
  headBytes .simple (if b then simpleTrue else simpleFalse) .minimal

/-- Null. -/
def nullBytes : Bytes := [nullByte]

/-- A definite string under the shortest head. -/
def stringBytes (m : Major) (payload : Bytes) : Bytes :=
  headBytes m (UInt64.ofNat payload.length) .minimal ++ payload

/-- The bytes of a text. -/
def textPayload (text : String) : Bytes := text.toByteArray.data.toList

/-- A definite text string. -/
def textBytes (text : String) : Bytes := stringBytes .text (textPayload text)

end CborSchema
