import CborSchema.Shape.TypeExpr
import CborSchema.Wire.Head

/-!
# Values

A value is a type, a content and notes.

* `Scalar`: a content without parts. An unsigned integer off the wire is `uint`, a negative one
  `nint` (`nint n` stands for `-1 - n`); a signed integer a type has taken in is `int`.
* `Content`: a scalar, the slots of a field layout, items, entries, or the one candidate of a
  union that was taken.
* `Notes`: what a value remembers of the item it was read from, and what it asks of the writer.
-/

namespace CborSchema

/-! ## 1. Contents -/

/-- A content without parts. -/
inductive Scalar where
  | bool (b : Bool)
  | uint (n : UInt64)
  /-- The negative integer `-1 - n`. -/
  | nint (n : UInt64)
  | int (n : Int64)
  | bytes (payload : Bytes)
  | text (s : String)
  | null
  deriving DecidableEq, Repr

/-- The name of a scalar in messages. -/
def Scalar.kind : Scalar → String
  | .bool _ => "bool"
  | .uint _ => "uint"
  | .nint _ => "nint"
  | .int _ => "int"
  | .bytes _ => "bytes"
  | .text _ => "text"
  | .null => "null"

/-- The content of a value with parts in `α`. -/
inductive Content (α : Type) where
  | scalar (s : Scalar)
  /-- One slot per field that is no literal, in the order of the layout. -/
  | fields (slots : List (Option α))
  | items (items : List α)
  | entries (entries : List (α × α))
  | variant (candidate : α)
  deriving Repr

/-- The name of a content in messages. -/
def Content.kind : Content α → String
  | .scalar _ => "scalar"
  | .fields _ => "fields"
  | .items _ => "items"
  | .entries _ => "entries"
  | .variant _ => "variant"

/-! ## 2. Notes -/

/-- How an item was framed and whether its optional tag was there. -/
structure ItemStyle where
  indefinite : Bool := false
  tagged : Bool := false
  deriving DecidableEq, Repr

/-- What a value keeps beside its content. -/
structure Notes where
  /-- The index of a constructor. -/
  alternative : Option UInt64 := none
  /-- The style the value was read with. -/
  observed : ItemStyle := {}
  /-- The style to write where the shape leaves it open. -/
  emit : Option ItemStyle := none
  /-- The bytes the value was read from. -/
  raw : Option Bytes := none
  /-- How many slots were left when the value was built. -/
  untaken : Nat := 0
  deriving DecidableEq, Repr

/-! ## 3. Values -/

/-- A value of a type. -/
inductive Value where
  | node (type : TypeExpr) (content : Content Value) (notes : Notes)
  deriving Repr

namespace Value

/-- The type of a value. -/
def type : Value → TypeExpr
  | node t _ _ => t

/-- The content of a value. -/
def content : Value → Content Value
  | node _ c _ => c

/-- The notes of a value. -/
def notes : Value → Notes
  | node _ _ n => n

mutual

/-- Change the notes of a value and of every value in it. -/
def mapNotes (f : Notes → Notes) : Value → Value
  | node t c n => node t (mapContent f c) (f n)
termination_by structural v => v

/-- Change the notes of every value in a content. -/
def mapContent (f : Notes → Notes) : Content Value → Content Value
  | .scalar s => .scalar s
  | .fields slots => .fields (mapSlots f slots)
  | .items items => .items (mapItems f items)
  | .entries entries => .entries (mapEntries f entries)
  | .variant v => .variant (mapNotes f v)
termination_by structural c => c

/-- Change the notes of the values in slots. -/
def mapSlots (f : Notes → Notes) : List (Option Value) → List (Option Value)
  | [] => []
  | slot :: slots => mapSlot f slot :: mapSlots f slots
termination_by structural slots => slots

/-- Change the notes of the value in a slot. -/
def mapSlot (f : Notes → Notes) : Option Value → Option Value
  | none => none
  | some v => some (mapNotes f v)
termination_by structural slot => slot

/-- Change the notes of items. -/
def mapItems (f : Notes → Notes) : List Value → List Value
  | [] => []
  | v :: vs => mapNotes f v :: mapItems f vs
termination_by structural items => items

/-- Change the notes of entries. -/
def mapEntries (f : Notes → Notes) : List (Value × Value) → List (Value × Value)
  | [] => []
  | e :: es => mapEntry f e :: mapEntries f es
termination_by structural entries => entries

/-- Change the notes of one entry. -/
def mapEntry (f : Notes → Notes) : Value × Value → Value × Value
  | (k, v) => (mapNotes f k, mapNotes f v)
termination_by structural e => e

end

/-- The value without any bytes kept, at every depth. -/
def dropRaw (v : Value) : Value := v.mapNotes fun n => { n with raw := none }

/-! ## 4. Making values -/

/-- A scalar without notes. -/
def ofScalar (t : TypeExpr) (s : Scalar) : Value := node t (.scalar s) {}

/-- A list of an item type. -/
def ofItems (item : TypeExpr) (items : List Value) : Value := node (.list item) (.items items) {}

/-- A list that keeps its framing. -/
def framedList (item : TypeExpr) (items : List Value) (indefinite : Bool) : Value :=
  node (.framedList item) (.items items) { emit := some { indefinite } }

/-- A list that keeps whether it is tagged as a set. -/
def taggedSet (item : TypeExpr) (items : List Value) (tagged : Bool) : Value :=
  node (.taggedSet item) (.items items) { emit := some { tagged } }

/-- A constructor of any index. -/
def anyConstructor (field : TypeExpr) (index : UInt64) (fields : List Value) : Value :=
  node (.anyConstructor field) (.items fields) { alternative := some index }

/-- An embedded item, with the bytes it was read from if it keeps them. -/
def ofEmbedded (payload : Bytes) (raw : Option Bytes) : Value :=
  node .embedded (.scalar (.bytes payload)) { raw }

/-- The payload of an embedded item. -/
def payload? (v : Value) : Option Bytes :=
  match v.type, v.content with
  | .embedded, .scalar (.bytes payload) => some payload
  | _, _ => none

end Value

end CborSchema
