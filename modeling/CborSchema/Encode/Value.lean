import CborSchema.Codec
import CborSchema.Encode.Collection

/-!
# Values written

* `Catalog.pieces`: what a value hands to the writer of its kind;
* `Shape.tagBefore`: the tag in front of an item. An optional tag is written unless the value
  asks for a style without it;
* `Codec.write`: a value of a type, by recursion on the nesting that is left. The type is
  resolved first, then the nesting is checked, then bytes that were kept are written as they are,
  and only a value without such bytes is taken apart;
* `Codec.encode`: the bytes of a value.
-/

namespace CborSchema

/-! ## 1. Pieces -/

/-- A scalar as the writers take it: a negative integer in the range of a signed one. -/
def Scalar.forWriting : Scalar → Except EncodeError Scalar
  | .nint n =>
    if n < 0x8000000000000000 then .ok (.int (-1 - n.toInt64)) else .error (.typeMismatch "i64")
  | s => .ok s

/-- What a value of a type hands to the writer of its kind; a value of another type is refused. -/
def Catalog.pieces (c : Catalog) (t : TypeExpr) (v : Value) : Except EncodeError Pieces :=
  if v.type ≠ t then .error (.typeMismatch (c.printName t))
  else match v.content with
    | .scalar s => do
      let s ← s.forWriting
      pure { content := .scalar s, alternative := v.notes.alternative, style := v.notes.emit }
    | content => .ok { content, alternative := v.notes.alternative, style := v.notes.emit }

/-- The bytes a value of a type was read from, if it kept them. -/
def Value.kept (v : Value) (t : TypeExpr) : Option Bytes := if v.type = t then v.notes.raw else none

/-! ## 2. Items -/

/-- The tag in front of an item. -/
def Shape.tagBefore (s : Shape) (style : Option ItemStyle) : Bytes :=
  match s.tag, style with
  | none, _ => []
  | some (.required tag), _ => tagBytes tag
  | some (.optional tag), none => tagBytes tag
  | some (.optional tag), some style => if style.tagged then tagBytes tag else []

/-- An item by the kind of the shape. -/
def Shape.writeKind (s : Shape) (w : Writing) (pieces : Pieces) : Outcome EncodeError Bytes :=
  match s.kind with
  | .scalar p => Outcome.ofExcept (s.writeScalar p pieces)
  | .list => s.writeArray w pieces
  | .map => s.writeMap w pieces
  | .constructor => s.writeConstructor w pieces
  | .union => s.writeUnion w pieces

/-- The tag, then the item. -/
def Shape.writePieces (s : Shape) (w : Writing) (pieces : Pieces) :
    Outcome EncodeError Bytes := do
  let item ← s.writeKind w pieces
  pure (s.tagBefore pieces.style ++ item)

/-! ## 3. Values -/

namespace Codec

/-- A value of a type, nested at most as deep as is left. -/
def write (c : Codec) (o : EncodeOptions) : Nat → TypeExpr → Value → Outcome EncodeError Bytes
  | 0, t, _ => do
    let _ ← c.reach EncodeError.config t
    Outcome.fail (.tooDeep o.maxDepth)
  | depth + 1, t, v => do
    let s ← c.reach EncodeError.config t
    match s.preserveRaw, v.kept t with
    | true, some raw => pure raw
    | _, _ =>
      let pieces ← Outcome.ofExcept (c.catalog.pieces t v)
      s.writePieces ⟨o, c.write o depth⟩ pieces

/-- Encode a value of its own type. -/
def encode (c : Codec) (v : Value) (o : EncodeOptions := {}) : Outcome EncodeError Bytes :=
  c.write o o.maxDepth v.type v

end Codec

end CborSchema
