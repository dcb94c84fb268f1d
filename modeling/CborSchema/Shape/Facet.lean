import CborSchema.Shape.TypeExpr
import CborSchema.Text.Quoted

/-!
# Facets

What a type may declare about its items, one facet at a time.

* `Kind`: a scalar, a list, a map, a constructor or a union;
* `Framing`, `HeadWidth` (`Wire/Head.lean`): how lengths and integers are written;
* `TagRule`, `Alternative`: the tag in front of an item, the index of a constructor;
* `Field`, `Layout`: the parts of a collection; a field is found under a key, and holds a value of
  a type or one fixed literal.
-/

namespace CborSchema

/-! ## 1. Kinds -/

/-- The scalar kinds. -/
inductive Primitive where
  | bool
  | uint
  | int
  | bytes
  | text
  | null
  | embedded
  deriving DecidableEq, Repr

namespace Primitive

/-- The name of a scalar kind in messages. -/
def name : Primitive → String
  | .bool => "bool"
  | .uint => "uint"
  | .int => "int"
  | .bytes => "bytes"
  | .text => "text"
  | .null => "null"
  | .embedded => "embedded"

/-- Whether values of the kind are strings on the wire. -/
def isString : Primitive → Bool
  | .bytes | .text | .embedded => true
  | .bool | .uint | .int | .null => false

end Primitive

/-- What reads and writes the items of a type. -/
inductive Kind where
  | scalar (primitive : Primitive)
  | list
  | map
  | constructor
  | union
  deriving DecidableEq, Repr

/-- The name of a kind in messages. -/
def Kind.name : Kind → String
  | .scalar p => p.name
  | .list => "list"
  | .map => "map"
  | .constructor => "constructor"
  | .union => "union"

/-! ## 2. Framing, tags and alternatives -/

/-- Which lengths a type accepts: declared ones, open ones, or both. -/
inductive Framing where
  | definite
  | indefinite
  | either
  deriving DecidableEq, Repr

/-- The tag in front of an item. -/
inductive TagRule where
  /-- The tag must be there. -/
  | required (tag : UInt64)
  /-- The tag may be there; no other tag may. -/
  | optional (tag : UInt64)
  deriving DecidableEq, Repr

/-- The tag number of a rule. -/
def TagRule.number : TagRule → UInt64
  | .required tag => tag
  | .optional tag => tag

/-- Which constructor a type is. -/
inductive Alternative where
  /-- One index, under its compact tag if it has one. -/
  | index (i : UInt64)
  /-- One index, always written in the general form. -/
  | general (i : UInt64)
  /-- Any index; each value carries its own. -/
  | any
  deriving DecidableEq, Repr

/-! ## 3. Fields -/

/-- The key of a field: its position or map key. -/
inductive FieldKey where
  | int (n : Int64)
  | text (s : String)
  deriving DecidableEq, Repr

/-- A key as messages show it. -/
def FieldKey.printed : FieldKey → String
  | .int n => toString n.toInt
  | .text s => Text.quoted s

/-- A fixed value. -/
inductive Literal where
  | int (n : Int64)
  | text (s : String)
  | bool (b : Bool)
  deriving DecidableEq, Repr

/-- A literal as messages show it. -/
def Literal.printed : Literal → String
  | .int n => toString n.toInt
  | .text s => Text.quoted s
  | .bool true => "true"
  | .bool false => "false"

/-- Whether a field may be absent: never, by being left out, or by being null. -/
inductive Presence where
  | required
  | optional
  | nullable
  deriving DecidableEq, Repr

/-- What stands under a key. -/
inductive FieldBody where
  | value (type : TypeExpr) (presence : Presence)
  | literal (literal : Literal)
  deriving DecidableEq, Repr

/-- One field of a layout. -/
structure Field where
  key : FieldKey
  body : FieldBody
  deriving DecidableEq, Repr

namespace Field

/-- A literal field must be there. -/
def presence (f : Field) : Presence :=
  match f.body with
  | .value _ p => p
  | .literal _ => .required

/-- Whether the field holds a fixed value, so that no slot belongs to it. -/
def isLiteral (f : Field) : Bool :=
  match f.body with
  | .value _ _ => false
  | .literal _ => true

end Field

/-- The parts of a collection. -/
inductive Layout where
  /-- Fields in order, each under its own key. -/
  | fields (fields : List Field)
  /-- Any number of items of one type. -/
  | items (item : TypeExpr)
  /-- Any number of entries. -/
  | entries (key value : TypeExpr)
  deriving DecidableEq, Repr

/-- The name of a layout in messages. -/
def Layout.name : Layout → String
  | .fields _ => "fields"
  | .items _ => "items"
  | .entries _ _ => "entries"

/-! ## 4. Names of facets -/

/-- A facet that a check may refuse (`Shape/Check.lean`). -/
inductive Facet where
  | alternative
  | candidates
  | extensible
  | size
  | chunkSize
  | length
  | headWidth
  | tag
  | preserveRaw
  | nullable
  deriving DecidableEq, Repr

/-- The name of a facet in messages. -/
def Facet.name : Facet → String
  | .alternative => "alternative"
  | .candidates => "candidates"
  | .extensible => "extensible"
  | .size => "size"
  | .chunkSize => "chunk_size"
  | .length => "length"
  | .headWidth => "int_width"
  | .tag => "tag"
  | .preserveRaw => "preserve_raw"
  | .nullable => "nullable"

end CborSchema
