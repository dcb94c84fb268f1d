import CborSchema.Decode.Value
import CborSchema.Encode.Value

/-!
# Registries

A registry remembers the shapes it resolved, and the faults of the types it could not resolve. A
type is entered the first time it is reached and never again.

* `Registry.resolve` is what a type resolves to: what is remembered, or what the catalog says;
* `Registry.enter` remembers the types a run reached;
* `Registry.resolving`, `Registry.decoding`, `Registry.encoding` are the steps on a registry.
-/

namespace CborSchema

/-- What the types reached so far resolved to, last first. -/
structure Registry where
  catalog : Catalog
  entries : List (TypeExpr × Except ConfigError Shape)

namespace Registry

/-- The registry of a catalog before any type is reached. -/
def ofCatalog (c : Catalog) : Registry := ⟨c, []⟩

/-- Whether a type was reached. -/
def contains (r : Registry) (t : TypeExpr) : Bool := r.entries.any fun e => e.1 == t

/-- How many types were reached. -/
def size (r : Registry) : Nat := r.entries.length

/-- What a type resolves to. -/
def resolve (r : Registry) (t : TypeExpr) : Except ConfigError Shape :=
  match r.entries.lookup t with
  | some shape => shape
  | none => r.catalog.resolve t

/-- The codec that takes its shapes from the registry. -/
def codec (r : Registry) : Codec := ⟨r.catalog, r.resolve⟩

/-- Remember a type that was reached. -/
def add (r : Registry) (t : TypeExpr) : Registry :=
  if r.contains t then r else { r with entries := (t, r.resolve t) :: r.entries }

/-- Remember the types a run reached. -/
def enter (r : Registry) (reached : List TypeExpr) : Registry := reached.foldl add r

/-- A step that runs on the codec of the registry. -/
def step (r : Registry) (run : Codec → Outcome ε α) : Except ε α × Registry :=
  let outcome := run r.codec
  (outcome.result, r.enter outcome.reached)

/-- Resolve a type. -/
def resolving (r : Registry) (t : TypeExpr) : Except ConfigError Shape × Registry :=
  r.step fun c => c.reach id t

/-- Decode a value of a type. -/
def decoding (r : Registry) (t : TypeExpr) (bytes : Bytes) : Except DecodeError Value × Registry :=
  r.step fun c => c.decode t bytes

/-- Encode a value. -/
def encoding (r : Registry) (v : Value) : Except EncodeError Bytes × Registry :=
  r.step fun c => c.encode v

end Registry

end CborSchema
