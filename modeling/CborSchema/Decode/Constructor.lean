import CborSchema.Decode.Array
import CborSchema.Wire.Tag

/-!
# Constructors read

A constructor is an array of fields behind a tag that gives its index.

* `readConstructorIndex`: a short tag stands for its index; after the general tag the index is the
  first of a pair, and the fields are the second;
* `Shape.readConstructor`: the index, which must be the one the shape fixes, then the fields.
-/

namespace CborSchema

/-- The index in front of the fields in the general form. -/
def readPairIndex (name : String) : Decoder UInt64 := do
  let pair ← Scan.head name
  if pair.major ≠ .array || pair.arg ≠ some 2 then
    Decoder.fail (.unexpectedMajor name "general constructor pair" pair.major)
  else
    let index ← Scan.head name
    match index.major, index.arg with
    | .unsigned, some i => pure i
    | found, _ => Decoder.fail (.unexpectedMajor name "constructor index" found)

/-- The index that the front of a constructor stands for. -/
def readConstructorIndex (name : String) : Decoder UInt64 := do
  let h ← Scan.head name
  if h.major ≠ .tag then Decoder.fail (.unexpectedMajor name "constructor tag" h.major)
  else
    let tag := h.arg.getD 0
    match Tag.index? tag with
    | some index => pure index
    | none =>
      if tag = Tag.general then readPairIndex name
      else Decoder.fail (.unknownConstructorTag name tag)

/-- Refuse another index than the one the shape fixes, if it fixes one. -/
def Shape.checkIndex (s : Shape) (index : UInt64) : Except DecodeError Unit :=
  match s.alternative with
  | some (.index expected) =>
    if expected = index then .ok () else .error (.constructorIndexMismatch s.name expected index)
  | some (.general expected) =>
    if expected = index then .ok () else .error (.constructorIndexMismatch s.name expected index)
  | _ => .ok ()

/-- A constructor of a shape. -/
def Shape.readConstructor (s : Shape) (r : Reading) : Decoder Parts := do
  let index ← readConstructorIndex s.name
  Decoder.ofExcept (s.checkIndex index)
  let parts ← s.readArray r
  pure { parts with alternative := some index }

end CborSchema
