import CborSchema.Shape.Facet

/-!
# Faulty declarations

Why the declaration of a type cannot be used. A faulty type fails whenever it is reached, and never
because of the bytes or the value at hand.
-/

namespace CborSchema

/-- Why the declaration of a type cannot be used; `type` is the type's printed name. -/
inductive ConfigError where
  | missingKind (type : String)
  | emptyMap (type : String)
  | emptyUnion (type : String)
  | selfCandidate (type : String)
  | duplicateKey (type : String) (key : FieldKey)
  | missingLayout (type : String) (kind : Kind)
  | layoutMismatch (type : String) (kind : Kind) (layout : Layout)
  | nonPositionalKey (type : String) (position : Nat) (key : FieldKey)
  | optionalBeforeRequired (type : String) (key : FieldKey)
  | facetMismatch (type : String) (facet : Facet) (kind : Kind)
  | tagConflict (type : String) (tag : UInt64)
  | inheritanceTooDeep (type : String) (max : Nat)
  | zeroChunkSize (type : String)
  deriving DecidableEq, Repr

namespace ConfigError

/-- The printed name of the faulty type. -/
def type : ConfigError → String
  | .missingKind type => type
  | .emptyMap type => type
  | .emptyUnion type => type
  | .selfCandidate type => type
  | .duplicateKey type _ => type
  | .missingLayout type _ => type
  | .layoutMismatch type _ _ => type
  | .nonPositionalKey type _ _ => type
  | .optionalBeforeRequired type _ => type
  | .facetMismatch type _ _ => type
  | .tagConflict type _ => type
  | .inheritanceTooDeep type _ => type
  | .zeroChunkSize type => type

/-- What is wrong, without the name of the type. -/
def fault : ConfigError → String
  | .missingKind _ => "no converter kind declared"
  | .emptyMap _ => "map declares no fields"
  | .emptyUnion _ => "union declares no candidates"
  | .selfCandidate _ => "union lists itself as a candidate"
  | .duplicateKey _ key => s!"duplicate field key {key.printed}"
  | .missingLayout _ kind => s!"{kind.name} requires a layout"
  | .layoutMismatch _ kind layout => s!"{kind.name} cannot use a {layout.name} layout"
  | .nonPositionalKey _ position key =>
    s!"field at position {position} has non-positional key {key.printed}"
  | .optionalBeforeRequired _ key => s!"optional field {key.printed} precedes a required field"
  | .facetMismatch _ facet kind => s!"facet `{facet.name}` does not apply to {kind.name}"
  | .tagConflict _ tag => s!"constructor alternative conflicts with explicit tag {tag}"
  | .inheritanceTooDeep _ max => s!"parent chain exceeds {max} levels"
  | .zeroChunkSize _ => "chunk size must be positive"

/-- The text of the error, its code in front. -/
def message (e : ConfigError) : String := s!"[E005] {e.type}: {e.fault}"

end ConfigError

end CborSchema
