import CborSchema.Conversion
import CborSchema.Limits
import CborSchema.Shape.Check
import CborSchema.Value.Order
import CborSchema.Wire.Tag

/-!
# Catalogs

A catalog says what the declared types are, how types print in messages and how the keys of ordered
maps compare.

* `Catalog.schema` is the schema of every type, the ones that are not declared included;
* `Catalog.inherit` merges a schema with its ancestors, nearest first, up to a bound that also ends
  a chain of parents that runs in a circle;
* `Catalog.resolve` is the checked shape of a type. It looks at the type alone: the types of its
  parts are resolved when they are reached.
-/

namespace CborSchema

/-- The types of a program. -/
structure Catalog where
  declared : String → Declaration
  printName : TypeExpr → String
  compareKeys : TypeExpr → Value → Value → Ordering := fun _ => Value.compareScalars

namespace Catalog

/-- The schema of a type. -/
def schema (c : Catalog) : TypeExpr → Schema
  | .bool => .scalar .bool
  | .uint64 => .scalar .uint
  | .uint32 => .scalar .uint
  | .int64 => .scalar .int
  | .text => .scalar .text
  | .bytes => .scalar .bytes
  | .null => .scalar .null
  | .embedded => (Schema.scalar .embedded).withTag Tag.embedded
  | .list item => Schema.list.withItems item
  | .map key value => Schema.map.withEntries key value
  | .framedList item => Schema.list.withItems item
  | .taggedSet item => (Schema.list.withOptionalTag Tag.finiteSet).withItems item
  | .anyConstructor field => Schema.anyConstructor.withItems field
  | .named name => (c.declared name).schema

/-- A schema with the facets of its ancestors, of which there may be at most the given number. -/
def inherit (c : Catalog) (name : String) : Nat → Schema → Except ConfigError Schema
  | budget, s =>
    match s.parent, budget with
    | none, _ => .ok s
    | some _, 0 => .error (.inheritanceTooDeep name Limits.ancestors)
    | some parent, budget + 1 => c.inherit name budget (s.merge (c.schema parent))

/-- The checked shape of a type. -/
def resolve (c : Catalog) (t : TypeExpr) : Except ConfigError Shape := do
  let schema ← c.inherit (c.printName t) Limits.ancestors (c.schema t)
  let shape ← Shape.ofSchema (c.printName t) schema
  shape.check t
  pure shape

end Catalog

end CborSchema
