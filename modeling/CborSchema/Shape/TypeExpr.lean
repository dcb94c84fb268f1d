/-!
# References to types

A type is referred to by what it is: a scalar, a container of other types, or a declared type with
a name. Two references are the same type exactly if they are equal.
-/

namespace CborSchema

/-- A type that takes part in encoding and decoding. -/
inductive TypeExpr where
  /-- A truth value. -/
  | bool
  /-- An unsigned integer of 64 bits. -/
  | uint64
  /-- An unsigned integer of 32 bits, 64 on the wire. -/
  | uint32
  /-- A signed integer of 64 bits. -/
  | int64
  /-- A text string. -/
  | text
  /-- A byte string. -/
  | bytes
  /-- The one value null. -/
  | null
  /-- A byte string under tag 24 that holds an encoded item. -/
  | embedded
  /-- A list of one item type. -/
  | list (item : TypeExpr)
  /-- A map in the order of its keys. -/
  | map (key value : TypeExpr)
  /-- A list that keeps the framing it was read with. -/
  | framedList (item : TypeExpr)
  /-- A list that keeps whether it was tagged as a set. -/
  | taggedSet (item : TypeExpr)
  /-- A constructor of any index over fields of one type. -/
  | anyConstructor (field : TypeExpr)
  /-- A declared type. -/
  | named (name : String)
  deriving DecidableEq, Repr

end CborSchema
