import CborSchema.Conversion
import CborSchema.Encode.Error
import CborSchema.Limits
import CborSchema.Outcome
import CborSchema.Shape.Basic
import CborSchema.Wire.Emit

/-!
# Writing at one level

What the writers of the kinds share: the options of the run and how the parts of a value are
written. The writers themselves do not recur; the recursion into the parts is handed to them.
-/

namespace CborSchema

/-- The options of an encoding run. -/
structure EncodeOptions where
  /-- How deep values may nest. -/
  maxDepth : Nat := Limits.depth
  /-- The framing of an array or map whose shape leaves it open and whose value asks for none. -/
  indefinite : Bool := false
  deriving DecidableEq, Repr

/-- What the writers of the kinds share. -/
structure Writing where
  options : EncodeOptions
  /-- How a part is written. -/
  part : TypeExpr → Value → Outcome EncodeError Bytes

/-- Whether an array or map is written indefinite. -/
def Writing.indefinite (w : Writing) (framing : Framing) (style : Option ItemStyle) : Bool :=
  match framing with
  | .definite => false
  | .indefinite => true
  | .either =>
    match style with
    | some style => style.indefinite
    | none => w.options.indefinite

/-- An array or map around its written parts. -/
def collectionBytes (major : Major) (indefinite : Bool) (count : Nat) (parts : Bytes) : Bytes :=
  if indefinite then indefiniteHead major ++ parts ++ [breakByte]
  else headBytes major (UInt64.ofNat count) .minimal ++ parts

/-- The refusal of a content that the layout of a shape does not fit. -/
def Shape.layoutError (s : Shape) (found : Content Value) : EncodeError :=
  .shapeMismatch s.name (match s.layout with
    | some layout => layout.name
    | none => "layout") found.kind

/-! ## Fields and slots -/

/-- Each field with its slot; a literal has none. -/
def alignFields : List Field → List (Option Value) → List (Field × Option Value)
  | [], _ => []
  | f :: fs, slots =>
    if f.isLiteral then (f, none) :: alignFields fs slots
    else match slots with
      | [] => (f, none) :: alignFields fs []
      | slot :: slots => (f, slot) :: alignFields fs slots

/-- Each field of a shape with its slot, if there are as many slots as the shape has. -/
def Shape.alignSlots (s : Shape) (fields : List Field) (slots : List (Option Value)) :
    Except EncodeError (List (Field × Option Value)) :=
  if slots.length = s.arity then .ok (alignFields fields slots)
  else .error (.fieldCount s.name s.arity slots.length)

end CborSchema
