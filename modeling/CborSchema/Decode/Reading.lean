import CborSchema.Conversion
import CborSchema.Decode.Decoder
import CborSchema.Limits
import CborSchema.Shape.Basic

/-!
# Reading at one level

What the readers of the kinds share: the options of the run, the nesting that is left, and how the
parts of a value are read. The readers themselves do not recur; the recursion into the parts is
handed to them.
-/

namespace CborSchema

/-- The options of a decoding run. -/
structure DecodeOptions where
  /-- How deep converted values may nest. -/
  maxDepth : Nat := Limits.depth
  /-- The largest declared array or map. -/
  maxCollectionLength : UInt64 := Limits.collectionLength
  /-- The longest string payload. -/
  maxStringLength : UInt64 := Limits.stringLength
  /-- Whether bytes may follow the item. -/
  allowTrailing : Bool := false
  deriving DecidableEq, Repr

/-- What the readers of the kinds share. -/
structure Reading where
  options : DecodeOptions
  /-- The nesting left below the value that is read. -/
  depth : Nat
  /-- How a part is read. -/
  part : TypeExpr → Decoder Value

namespace Shape

/-- Refuse a framing that the shape does not accept. -/
def requireFraming (s : Shape) (indefinite : Bool) : Except DecodeError Unit :=
  match s.length, indefinite with
  | .definite, true => .error (.framingMismatch s.name true)
  | .indefinite, false => .error (.framingMismatch s.name false)
  | _, _ => .ok ()

/-- The head of an array or map, and what is to come of it. -/
def openCollection (s : Shape) (r : Reading) (major : Major) : Decoder Pending := do
  let h ← Scan.head s.name
  if h.major ≠ major then Decoder.fail (.unexpectedMajor s.name major.name h.major)
  else
    Decoder.ofExcept (s.requireFraming h.isIndefinite)
    if h.isIndefinite then pure .toBreak
    else
      let n ← Scan.ofExcept (h.boundedLength r.options.maxCollectionLength s.name)
      pure (.counted n)

end Shape

/-- The style of a collection that was opened. -/
def Pending.style (e : Pending) : ItemStyle := { indefinite := e == .toBreak }

end CborSchema
