import CborSchema.Shape.Basic

/-!
# Checks on shapes

A shape is used only if its facets agree with each other. The checks run in a fixed order and the
first that fails is the answer.

* `Shape.checkScalarFacets`: facets that only strings and integers have;
* `Shape.checkPositional`: the fields of a list or constructor, keyed by their positions, with the
  optional ones at the end;
* `Shape.checkKeyed`: the fields of a map, under different keys and never nullable;
* `Shape.check`: all of it for a type.
-/

namespace CborSchema.Shape

/-- Refuse a facet that does not apply, unless the condition says it was not declared. -/
def refuse (s : Shape) (facet : Facet) (declared : Bool) : Except ConfigError Unit :=
  if declared then .error (.facetMismatch s.name facet s.kind) else .ok ()

/-! ## 1. Facets -/

/-- Facets that only scalars have. -/
def checkScalarFacets (s : Shape) : Except ConfigError Unit := do
  s.refuse .size s.size.isSome
  s.refuse .chunkSize s.chunkSize.isSome
  s.refuse .headWidth (s.headWidth != .minimal)

/-- The facets of a scalar: a size, chunks and framing are for strings, a head width is for
    integers. -/
def checkScalar (s : Shape) (p : Primitive) : Except ConfigError Unit := do
  if let some layout := s.layout then throw (.layoutMismatch s.name s.kind layout)
  s.refuse .extensible s.extensible
  s.refuse .size (!p.isString && s.size.isSome)
  s.refuse .chunkSize (!p.isString && s.chunkSize.isSome)
  s.refuse .length (!p.isString && s.length != .either)
  s.refuse .headWidth (p != .uint && p != .int && s.headWidth != .minimal)

/-- The facets of a union: candidates other than itself, and nothing else. -/
def checkUnion (s : Shape) (self : TypeExpr) : Except ConfigError Unit := do
  if s.candidates.isEmpty then throw (.emptyUnion s.name)
  if s.candidates.contains self then throw (.selfCandidate s.name)
  s.refuse .tag s.tag.isSome
  if let some layout := s.layout then throw (.layoutMismatch s.name s.kind layout)
  s.refuse .extensible s.extensible
  s.refuse .preserveRaw s.preserveRaw
  s.checkScalarFacets
  s.refuse .length (s.length != .either)

/-! ## 2. Fields -/

/-- The fields from a position on: `before` are the keys that came, `firstOptional` the key of the
    first optional field among them. -/
def checkPositions (name : String) :
    Nat → List FieldKey → Option FieldKey → List Field → Except ConfigError Unit
  | _, _, _, [] => .ok ()
  | position, before, firstOptional, f :: fs =>
    if f.key ≠ .int (Int64.ofNat position) then
      if before.contains f.key then .error (.duplicateKey name f.key)
      else .error (.nonPositionalKey name position f.key)
    else match f.presence, firstOptional with
      | .optional, none => checkPositions name (position + 1) (before ++ [f.key]) (some f.key) fs
      | .optional, some key => checkPositions name (position + 1) (before ++ [f.key]) (some key) fs
      | _, some key => .error (.optionalBeforeRequired name key)
      | _, none => checkPositions name (position + 1) (before ++ [f.key]) none fs

/-- Array fields: keyed by their positions, the optional ones at the end. -/
def checkPositional (s : Shape) (fields : List Field) : Except ConfigError Unit :=
  checkPositions s.name 0 [] none fields

/-- The fields of a map after those with the keys `before`. -/
def checkKeys (s : Shape) (before : List FieldKey) : List Field → Except ConfigError Unit
  | [] => .ok ()
  | f :: fs =>
    if before.contains f.key then .error (.duplicateKey s.name f.key)
    else if f.presence = .nullable then .error (.facetMismatch s.name .nullable s.kind)
    else s.checkKeys (before ++ [f.key]) fs

/-- Map fields: at least one, under different keys, none nullable. -/
def checkKeyed (s : Shape) (fields : List Field) : Except ConfigError Unit :=
  if fields.isEmpty then .error (.emptyMap s.name) else s.checkKeys [] fields

/-- The layout of an array. -/
def checkArrayLayout (s : Shape) : Except ConfigError Unit :=
  match s.layout with
  | some (.fields fields) => s.checkPositional fields
  | some (.items _) => .ok ()
  | some layout => .error (.layoutMismatch s.name s.kind layout)
  | none => .error (.missingLayout s.name s.kind)

/-- The layout of a map. -/
def checkMapLayout (s : Shape) : Except ConfigError Unit :=
  match s.layout with
  | some (.fields fields) => s.checkKeyed fields
  | some (.entries _ _) => .ok ()
  | some layout => .error (.layoutMismatch s.name s.kind layout)
  | none => .error (.emptyMap s.name)

/-! ## 3. All checks -/

/-- Whether the facets of a type agree with each other; `self` is the type. -/
def check (s : Shape) (self : TypeExpr) : Except ConfigError Unit := do
  if s.chunkSize = some 0 then throw (.zeroChunkSize s.name)
  s.refuse .alternative (s.alternative.isSome && s.kind != .constructor)
  s.refuse .candidates (!s.candidates.isEmpty && s.kind != .union)
  match s.kind with
  | .scalar p => s.checkScalar p
  | .list => do
    s.checkScalarFacets
    s.checkArrayLayout
  | .map => do
    s.checkScalarFacets
    s.checkMapLayout
  | .constructor => do
    if let some tag := s.tag then throw (.tagConflict s.name tag.number)
    s.checkScalarFacets
    s.checkArrayLayout
  | .union => s.checkUnion self

end CborSchema.Shape
