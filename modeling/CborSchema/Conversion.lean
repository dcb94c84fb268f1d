import CborSchema.Shape.Schema
import CborSchema.Value.Basic

/-!
# Conversions

How a declared type is built from the parts of a decoded item.

* `Asks` is what it asks the parts for; unless it says, what its shape has;
* `ScalarForm` is the form in which a scalar is taken in, with the checks of that form;
* `Parts` is what decoding one item gives, `Pieces` what encoding one value needs.
-/

namespace CborSchema

/-! ## 1. Parts and pieces -/

/-- What decoding one item gives. -/
structure Parts where
  /-- The printed name of the type. -/
  name : String
  content : Content Value
  alternative : Option UInt64 := none
  style : ItemStyle := {}
  raw : Option Bytes := none

/-- What encoding one value needs. -/
structure Pieces where
  content : Content Value
  alternative : Option UInt64 := none
  style : Option ItemStyle := none

/-! ## 2. What a declared type asks for -/

/-- The form in which a scalar is taken in. -/
inductive ScalarForm where
  /-- Any scalar as it is. -/
  | any
  | bool
  | uint64
  | uint32
  | int64
  | bytes
  | text
  | null
  deriving DecidableEq, Repr

/-- The form in which a scalar kind is taken in unless the type says otherwise. -/
def Primitive.form : Primitive → ScalarForm
  | .bool => .bool
  | .uint => .uint64
  | .int => .int64
  | .bytes => .bytes
  | .embedded => .bytes
  | .text => .text
  | .null => .null

/-- A slot that is taken: of which type, and whether it may be absent. -/
structure Take where
  type : TypeExpr
  optional : Bool
  deriving DecidableEq, Repr

/-- What a declared type asks its parts for. -/
inductive Asks where
  /-- What its shape has. -/
  | byShape
  | scalar
  /-- The candidate taken; of the types listed, if any are. -/
  | variant (accepted : Option (List TypeExpr))
  | items (item : TypeExpr)
  | entries (key value : TypeExpr)
  /-- Slots in order; unless listed, one for each field of the shape that is no literal. -/
  | fields (takes : Option (List Take))
  deriving DecidableEq, Repr

/-- How a declared type is built from parts. A declared type builds its values by one of these plans
    and by nothing else: it looks at the content that it asks for, never at the style or the bytes
    of the item, and whether it refuses for a reason of its own does not depend on the content. -/
structure Conversion where
  asks : Asks := .byShape
  form : Option ScalarForm := none
  /-- The reason for which no value is built at all. -/
  reject : Option String := none
  /-- Whether a value writes the style it was read with. -/
  keepsStyle : Bool := false
  deriving DecidableEq, Repr

/-- A declared type. -/
structure Declaration where
  schema : Schema := {}
  conversion : Conversion := {}
  deriving DecidableEq, Repr

end CborSchema
