import CborSchema.Shape.Facet
import CborSchema.Wire.Head

/-!
# Schemas

A schema is what a type declares about itself: any of the facets, and a parent to take the others
from.

* `Schema.list`, `Schema.withTag`, … build a schema step by step; a later step overrules an
  earlier one;
* `Schema.merge` fills the facets a schema leaves open from its parent and goes on with the
  parent's own parent.
-/

namespace CborSchema

/-- The facets a type declares; an absent one is open. -/
structure Schema where
  kind : Option Kind := none
  tag : Option TagRule := none
  alternative : Option Alternative := none
  length : Option Framing := none
  layout : Option Layout := none
  candidates : Option (List TypeExpr) := none
  preserveRaw : Option Bool := none
  extensible : Option Bool := none
  size : Option Nat := none
  chunkSize : Option Nat := none
  headWidth : Option HeadWidth := none
  parent : Option TypeExpr := none
  deriving DecidableEq, Repr

namespace Schema

/-! ## 1. Building -/

/-- A schema that declares nothing. -/
def empty : Schema := {}

/-- Declare the kind. -/
def withKind (s : Schema) (kind : Kind) : Schema := { s with kind := some kind }

/-- Declare which constructor. -/
def withAlternative (s : Schema) (a : Alternative) : Schema := { s with alternative := some a }

/-- A scalar. -/
def scalar (p : Primitive) : Schema := empty.withKind (.scalar p)

/-- A list. -/
def list : Schema := empty.withKind .list

/-- A map. -/
def map : Schema := empty.withKind .map

/-- The constructor of one index. -/
def constructor (i : UInt64) : Schema := (empty.withKind .constructor).withAlternative (.index i)

/-- A constructor of any index. -/
def anyConstructor : Schema := (empty.withKind .constructor).withAlternative .any

/-- A union. -/
def union : Schema := empty.withKind .union

/-- A schema that takes everything from a parent. -/
def inherit (parent : TypeExpr) : Schema := { parent := some parent }

/-- Require a tag. -/
def withTag (s : Schema) (tag : UInt64) : Schema := { s with tag := some (.required tag) }

/-- Allow a tag. -/
def withOptionalTag (s : Schema) (tag : UInt64) : Schema := { s with tag := some (.optional tag) }

/-- Declare the framing. -/
def withLength (s : Schema) (framing : Framing) : Schema := { s with length := some framing }

/-- Keep the bytes a value was read from. -/
def keepingRaw (s : Schema) : Schema := { s with preserveRaw := some true }

/-- Pass over elements and keys that are not declared. -/
def allowingExtras (s : Schema) : Schema := { s with extensible := some true }

/-- Fix the number of bytes of a string. -/
def withSize (s : Schema) (size : Nat) : Schema := { s with size := some size }

/-- Bound the chunks of a string. -/
def withChunkSize (s : Schema) (size : Nat) : Schema := { s with chunkSize := some size }

/-- Declare the least head width of an integer. -/
def withHeadWidth (s : Schema) (w : HeadWidth) : Schema := { s with headWidth := some w }

/-- Append a field; where another layout was declared the field replaces it. -/
def withField (s : Schema) (f : Field) : Schema :=
  match s.layout with
  | some (.fields fields) => { s with layout := some (.fields (fields ++ [f])) }
  | _ => { s with layout := some (.fields [f]) }

/-- Append a field that holds a value. -/
def withValue (s : Schema) (key : FieldKey) (type : TypeExpr) (presence : Presence) : Schema :=
  s.withField ⟨key, .value type presence⟩

/-- Append a field that holds a literal. -/
def withLiteral (s : Schema) (key : FieldKey) (literal : Literal) : Schema :=
  s.withField ⟨key, .literal literal⟩

/-- Lay out items of one type. -/
def withItems (s : Schema) (item : TypeExpr) : Schema := { s with layout := some (.items item) }

/-- Lay out entries. -/
def withEntries (s : Schema) (key value : TypeExpr) : Schema :=
  { s with layout := some (.entries key value) }

/-- Append a candidate. -/
def withCandidate (s : Schema) (type : TypeExpr) : Schema :=
  { s with candidates := some (s.candidates.getD [] ++ [type]) }

/-! ## 2. Inheriting -/

/-- Each facet of the schema if it declares it, else the parent's; the parent's parent is left to
    merge next. -/
def merge (s parent : Schema) : Schema where
  kind := s.kind.or parent.kind
  tag := s.tag.or parent.tag
  alternative := s.alternative.or parent.alternative
  length := s.length.or parent.length
  layout := s.layout.or parent.layout
  candidates := s.candidates.or parent.candidates
  preserveRaw := s.preserveRaw.or parent.preserveRaw
  extensible := s.extensible.or parent.extensible
  size := s.size.or parent.size
  chunkSize := s.chunkSize.or parent.chunkSize
  headWidth := s.headWidth.or parent.headWidth
  parent := parent.parent

end Schema

end CborSchema
