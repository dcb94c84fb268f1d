import CborSchema.Codec
import CborSchema.Decode.Construct
import CborSchema.Decode.Constructor
import CborSchema.Decode.Map
import CborSchema.Decode.Union

/-!
# Values read

* `Shape.readTagBefore`: the tag in front of an item, if the shape has one;
* `Shape.readItem`: the tag, then the item by the kind of the shape;
* `Codec.read`: a value of a type, by recursion on the nesting that is left. The type is
  resolved first, then the nesting is checked, then the item is read and the value built;
* `Codec.decode`: a value from bytes that hold nothing else, unless more is allowed.
-/

namespace CborSchema

/-- The tag in front of an item; whether it was there. -/
def Shape.readTagBefore (s : Shape) : Decoder Bool :=
  match s.tag with
  | none => pure false
  | some rule => do
    let h ← Scan.peek (Scan.head s.name)
    if h.major ≠ .tag then
      match rule with
      | .required expected => Decoder.fail (.missingTag s.name expected)
      | .optional _ => pure false
    else
      let found := h.arg.getD 0
      if found ≠ rule.number then Decoder.fail (.unexpectedTag s.name rule.number found)
      else
        let _ ← Scan.head s.name
        pure true

/-- An item by the kind of the shape. -/
def Shape.readKind (s : Shape) (r : Reading) (catalog : Catalog) : Decoder Parts :=
  match s.kind with
  | .scalar p => s.readScalar r p
  | .list => s.readArray r
  | .map => s.readMap r
  | .constructor => s.readConstructor r
  | .union => s.readUnion r catalog

/-- The tag, then the item. -/
def Shape.readItem (s : Shape) (r : Reading) (catalog : Catalog) : Decoder Parts := do
  let tagged ← s.readTagBefore
  let parts ← s.readKind r catalog
  pure { parts with style := { parts.style with tagged } }

/-- The parts of an item, with its bytes if the shape keeps them. -/
def Shape.readKept (s : Shape) (r : Reading) (catalog : Catalog) : Decoder Parts :=
  if s.preserveRaw then do
    let (parts, span) ← Decoder.spanned (s.readItem r catalog)
    pure { parts with raw := some span }
  else s.readItem r catalog

namespace Codec

/-- The shape of a type that a decoder reached. -/
def shape (c : Codec) (t : TypeExpr) : Decoder Shape := fun bytes => do
  let s ← c.reach DecodeError.config t
  pure (s, bytes)

/-- A value of a type, nested at most as deep as is left. -/
def read (c : Codec) (o : DecodeOptions) : Nat → TypeExpr → Decoder Value
  | 0, t => do
    let _ ← c.shape t
    Decoder.fail (.wire (.tooDeep o.maxDepth))
  | depth + 1, t => do
    let s ← c.shape t
    let parts ← s.readKept ⟨o, depth, c.read o depth⟩ c.catalog
    Decoder.ofExcept (c.catalog.construct t s parts)

/-- Decode a value of a type. -/
def decode (c : Codec) (t : TypeExpr) (bytes : Bytes) (o : DecodeOptions := {}) :
    Outcome DecodeError Value := do
  let (v, rest) ← c.read o o.maxDepth t bytes
  if o.allowTrailing || rest.isEmpty then pure v
  else Outcome.fail (.trailingBytes rest.length)

/-- Decode the item in the payload of an embedded value. -/
def decodePayload (c : Codec) (t : TypeExpr) (v : Value) : Outcome DecodeError Value :=
  c.decode t (v.payload?.getD [])

end Codec

end CborSchema
