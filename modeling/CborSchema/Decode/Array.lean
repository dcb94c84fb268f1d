import CborSchema.Decode.Scalar

/-!
# Arrays read

* `readItems`: any number of items of one type;
* `Shape.readPositional`: one element per field, in order; an optional field may be missing at
  the end, a nullable one may be null, and elements past the last field are passed over;
* `Shape.readArray`: an array of either layout.
-/

namespace CborSchema

/-! ## 1. Items and fields -/

/-- Items of one type, as many as are to come. -/
def readItems (r : Reading) (item : TypeExpr) (e : Pending) : Decoder (List Value) := do
  let rev ← e.fold (fun rev => do
    let v ← r.part item
    pure (v :: rev)) []
  pure rev.reverse

/-- The slot of a field that is there. -/
def readSlot (r : Reading) (name : String) (type : TypeExpr) (presence : Presence) :
    Decoder (Option Value) := do
  if presence = .nullable then
    let b ← Scan.peek (Scan.byte name)
    if b = nullByte then
      let _ ← Scan.byte name
      pure none
    else
      let v ← r.part type
      pure (some v)
  else
    let v ← r.part type
    pure (some v)

/-- One element per field, in order; then what is still to come. -/
def readByPosition (r : Reading) (name : String) :
    List Field → Pending → Decoder (List (Option Value) × Pending)
  | [], e => pure ([], e)
  | f :: fs, e => do
    let (more, e) ← e.another
    if more then
      match f.body with
      | .literal literal => do
        expectLiteral name r.options.maxStringLength f.key literal
        readByPosition r name fs e
      | .value type presence => do
        let slot ← readSlot r name type presence
        let (slots, e) ← readByPosition r name fs e
        pure (slot :: slots, e)
    else if f.presence = .optional then do
      let (slots, e) ← readByPosition r name fs e
      pure (none :: slots, e)
    else Decoder.fail (.missingField name f.key)

/-- Pass over the elements that are to come, and count them. -/
def skipElements (r : Reading) (e : Pending) : Decoder Nat :=
  e.fold (fun n => do
    Scan.skip r.depth
    pure (n + 1)) 0

/-- The slots of a tuple. -/
def Shape.readPositional (s : Shape) (r : Reading) (fields : List Field) (e : Pending) :
    Decoder (List (Option Value)) := do
  let (slots, e) ← readByPosition r s.name fields e
  let extra ← skipElements r e
  if 0 < extra && !s.extensible then
    Decoder.fail (.fieldCount s.name fields.length (fields.length + extra))
  else pure slots

/-- An array of a shape. -/
def Shape.readArray (s : Shape) (r : Reading) : Decoder Parts := do
  let e ← s.openCollection r .array
  match s.layout with
  | some (.items item) => do
    let items ← readItems r item e
    pure { name := s.name, content := .items items, style := e.style }
  | some (.fields fields) => do
    let slots ← s.readPositional r fields e
    pure { name := s.name, content := .fields slots, style := e.style }
  | _ => Decoder.fail (.unexpectedParts s.name "array layout" "entries")

end CborSchema
