import CborSchema.Catalog
import CborSchema.Outcome

/-!
# Codecs

A codec is a catalog and the place its shapes come from: the catalog itself, or a registry that
remembers them (`Registry.lean`). Either way a type is resolved whenever a value of it is read or
written, and the outcome tells which types were.
-/

namespace CborSchema

/-- A catalog and where the shapes of its types come from. -/
structure Codec where
  catalog : Catalog
  resolve : TypeExpr → Except ConfigError Shape

/-- The codec that resolves every type anew. -/
def Catalog.codec (c : Catalog) : Codec := ⟨c, c.resolve⟩

/-- The shape of a type that is reached; a faulty declaration becomes an error of the run. -/
def Codec.reach (c : Codec) (faulty : ConfigError → ε) (t : TypeExpr) : Outcome ε Shape :=
  ⟨(c.resolve t).mapError faulty, [t]⟩

end CborSchema
