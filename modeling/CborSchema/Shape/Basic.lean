import CborSchema.Shape.Error
import CborSchema.Shape.Schema

/-!
# Shapes

A shape is a schema with every facet settled: what is left open after inheriting gets its default.

* `Shape.ofSchema` settles a schema; only a missing kind is refused here, all else is checked in
  `Shape/Check.lean`;
* `Shape.fields`, `Shape.arity` view the layout as fields; a literal has no slot.
-/

namespace CborSchema

/-- The settled facets of one type. -/
structure Shape where
  name : String
  kind : Kind
  tag : Option TagRule
  alternative : Option Alternative
  length : Framing
  layout : Option Layout
  candidates : List TypeExpr
  preserveRaw : Bool
  extensible : Bool
  size : Option Nat
  chunkSize : Option Nat
  headWidth : HeadWidth
  deriving DecidableEq, Repr

namespace Shape

/-- Settle a schema. A constructor without an alternative is constructor 0, and an embedded item
    always keeps the bytes it was read from. -/
def ofSchema (name : String) (s : Schema) : Except ConfigError Shape :=
  match s.kind with
  | none => .error (.missingKind name)
  | some kind => .ok {
      name
      kind
      tag := s.tag
      alternative :=
        if kind = .constructor then s.alternative.or (some (.index 0)) else s.alternative
      length := s.length.getD .either
      layout := s.layout
      candidates := s.candidates.getD []
      preserveRaw := kind == .scalar .embedded || s.preserveRaw.getD false
      extensible := s.extensible.getD false
      size := s.size
      chunkSize := s.chunkSize
      headWidth := s.headWidth.getD .minimal }

/-- The fields of the layout; none for a layout without fields. -/
def fields (s : Shape) : List Field :=
  match s.layout with
  | some (.fields fields) => fields
  | _ => []

/-- How many slots the fields have. -/
def arity (s : Shape) : Nat := s.fields.countP fun f => !f.isLiteral

end Shape

end CborSchema
