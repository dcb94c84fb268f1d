import CborSchema.Encode.Scalar
import CborSchema.Wire.Tag

/-!
# Collections written

* `writtenFields`: a tuple is written up to its last field that is there or must be;
* `Shape.writeArray`, `Shape.writeMap`: the head counts exactly the elements or entries that
  follow, or a break closes them;
* `Shape.writeConstructor`: the compact tag of the index if it has one and the shape does not ask
  for the general form;
* `Shape.writeUnion`: the value as an item of its own type, which must be a candidate.
-/

namespace CborSchema

/-! ## 1. Arrays -/

/-- Whether a field is left out at the end of a tuple. -/
def omitted (entry : Field × Option Value) : Bool :=
  entry.2.isNone && entry.1.presence == .optional

/-- The fields of a tuple that are written. -/
def writtenFields (entries : List (Field × Option Value)) : List (Field × Option Value) :=
  (entries.reverse.dropWhile omitted).reverse

/-- One element of a tuple. -/
def writeElement (w : Writing) (name : String) (entry : Field × Option Value) :
    Outcome EncodeError Bytes :=
  match entry.1.body, entry.2 with
  | .literal literal, _ => pure literal.bytes
  | .value type _, some v => w.part type v
  | .value _ .nullable, none => pure nullBytes
  | .value _ _, none => Outcome.fail (.missingField name entry.1.key)

/-- An array of a shape. -/
def Shape.writeArray (s : Shape) (w : Writing) (pieces : Pieces) : Outcome EncodeError Bytes :=
  let indefinite := w.indefinite s.length pieces.style
  match s.layout, pieces.content with
  | some (.items item), .items items => do
    let parts ← Outcome.concat (w.part item) items
    pure (collectionBytes .array indefinite items.length parts)
  | some (.fields fields), .fields slots => do
    let entries ← Outcome.ofExcept (s.alignSlots fields slots)
    let written := writtenFields entries
    let parts ← Outcome.concat (writeElement w s.name) written
    pure (collectionBytes .array indefinite written.length parts)
  | _, found => Outcome.fail (s.layoutError found)

/-! ## 2. Maps -/

/-- One entry of a dynamic map. -/
def writeEntry (w : Writing) (key value : TypeExpr) (entry : Value × Value) :
    Outcome EncodeError Bytes := do
  let k ← w.part key entry.1
  let v ← w.part value entry.2
  pure (k ++ v)

/-- Whether a field of a map is written. -/
def isWritten (entry : Field × Option Value) : Bool := entry.1.isLiteral || entry.2.isSome

/-- The first field that must be there and is not is refused. -/
def checkSlots (name : String) : List (Field × Option Value) → Except EncodeError Unit
  | [] => .ok ()
  | e :: es =>
    if !isWritten e && e.1.presence != .optional then .error (.missingField name e.1.key)
    else checkSlots name es

/-- One field of a map: its key and what stands under it. -/
def writeKeyed (w : Writing) (entry : Field × Option Value) : Outcome EncodeError Bytes :=
  match entry.1.body, entry.2 with
  | .literal literal, _ => pure (entry.1.key.bytes ++ literal.bytes)
  | .value type _, some v => do
    let part ← w.part type v
    pure (entry.1.key.bytes ++ part)
  | .value _ _, none => pure []

/-- A map of a shape. -/
def Shape.writeMap (s : Shape) (w : Writing) (pieces : Pieces) : Outcome EncodeError Bytes :=
  let indefinite := w.indefinite s.length pieces.style
  match s.layout, pieces.content with
  | some (.entries key value), .entries entries => do
    let parts ← Outcome.concat (writeEntry w key value) entries
    pure (collectionBytes .map indefinite entries.length parts)
  | some (.fields fields), .fields slots => do
    let entries ← Outcome.ofExcept (s.alignSlots fields slots)
    Outcome.ofExcept (checkSlots s.name entries)
    let parts ← Outcome.concat (writeKeyed w) entries
    pure (collectionBytes .map indefinite (entries.countP isWritten) parts)
  | _, found => Outcome.fail (s.layoutError found)

/-! ## 3. Constructors and unions -/

/-- The index of a constructor value, and whether its general form is asked for. -/
def Shape.constructorIndex (s : Shape) (pieces : Pieces) : Except EncodeError (UInt64 × Bool) :=
  match s.alternative, pieces.alternative with
  | some (.general index), _ => .ok (index, true)
  | some (.index index), _ => .ok (index, false)
  | _, some index => .ok (index, false)
  | _, none => .error (.missingAlternative s.name)

/-- What stands in front of the fields of a constructor. -/
def constructorFront (index : UInt64) (general : Bool) : Bytes :=
  match Tag.ofIndex? index, general with
  | some tag, false => tagBytes tag
  | _, _ => tagBytes Tag.general ++ headBytes .array 2 .minimal ++ uintBytes index

/-- A constructor of a shape. -/
def Shape.writeConstructor (s : Shape) (w : Writing) (pieces : Pieces) :
    Outcome EncodeError Bytes := do
  let (index, general) ← Outcome.ofExcept (s.constructorIndex pieces)
  let fields ← s.writeArray w pieces
  pure (constructorFront index general ++ fields)

/-- A union of a shape. -/
def Shape.writeUnion (s : Shape) (w : Writing) (pieces : Pieces) : Outcome EncodeError Bytes :=
  match pieces.content with
  | .variant v =>
    if s.candidates.contains v.type then w.part v.type v
    else Outcome.fail (.notACandidate s.name)
  | found => Outcome.fail (.shapeMismatch s.name "variant" found.kind)

end CborSchema
