import CborSchema.Decode.Scalar

/-!
# Maps read

* `readEntries`: entries of one key and one value type; two keys with the same bytes are refused
  before the second value is read;
* `readKeyItem`: what stands in the place of a key. Any item may; only a signed integer of 64 bits
  or a text is a key that a field can have;
* `Shape.readKeyed`: fields in any order, each at most once. A key that no field has is passed over
  with its value, or refused if the shape is not extensible.
-/

namespace CborSchema

/-! ## 1. Entries -/

/-- One entry after those that were read; `seen` are the bytes of their keys, last first. -/
def readEntry (r : Reading) (name : String) (key value : TypeExpr)
    (seen : List (Bytes × Value × Value)) : Decoder (List (Bytes × Value × Value)) := do
  let (k, span) ← Decoder.spanned (r.part key)
  if seen.any fun e => e.1 == span then
    let digits := Hex.ofBytes span
    Decoder.fail (.duplicateKey name s!"h'{digits}'")
  else
    let v ← r.part value
    pure ((span, k, v) :: seen)

/-- Entries of one key and one value type, as many as are to come. -/
def readEntries (r : Reading) (name : String) (key value : TypeExpr) (e : Pending) :
    Decoder (List (Value × Value)) := do
  let rev ← e.fold (readEntry r name key value) []
  pure (rev.reverse.map fun e => e.2)

/-! ## 2. Keys of fields -/

/-- What stands in the place of a key. -/
inductive KeyItem where
  /-- A key that a field can have. -/
  | field (key : FieldKey)
  /-- Any other item, as messages show it. -/
  | other (shown : String)
  deriving DecidableEq, Repr

/-- A key as messages show it. -/
def KeyItem.printed : KeyItem → String
  | .field k => k.printed
  | .other shown => shown

/-- The largest argument that fits a signed integer. -/
def maxSigned : UInt64 := 0x7fffffffffffffff

/-- The item in the place of a key. -/
def readKeyItem (r : Reading) : Decoder KeyItem := do
  let h ← Scan.peek (Scan.head "map key")
  match h.major, h.arg with
  | .unsigned, some n => do
    let _ ← Scan.head "map key"
    pure (if n ≤ maxSigned then .field (.int n.toInt64) else .other (toString n))
  | .negative, some n => do
    let _ ← Scan.head "map key"
    pure (if n ≤ maxSigned then .field (.int (-1 - n.toInt64)) else .other s!"-1-{n}")
  | .text, _ => do
    let h ← Scan.head "map key"
    let payload ← Scan.payload h r.options.maxStringLength "map key"
    let text ← Decoder.ofExcept (readText payload "map key")
    pure (.field (.text text))
  | major, _ => do
    Scan.skip r.depth
    pure (.other s!"<{major.name}>")

/-! ## 3. Fields -/

/-- The fields that were read: the key of each, and its value unless it is a literal. -/
abbrev Found := List (FieldKey × Option Value)

/-- One entry after the fields that were read. -/
def Shape.readKeyedEntry (s : Shape) (r : Reading) (fields : List Field) (found : Found) :
    Decoder Found := do
  let key ← readKeyItem r
  match fields.find? fun f => key == .field f.key with
  | none =>
    if s.extensible then
      Scan.skip r.depth
      pure found
    else Decoder.fail (.unknownKey s.name key.printed)
  | some f =>
    if found.any fun e => e.1 == f.key then Decoder.fail (.duplicateKey s.name key.printed)
    else match f.body with
      | .literal literal => do
        expectLiteral s.name r.options.maxStringLength f.key literal
        pure ((f.key, none) :: found)
      | .value type _ => do
        let v ← r.part type
        pure ((f.key, some v) :: found)

/-- The first field that must be there and was not read is refused. -/
def checkPresent (name : String) (found : Found) : List Field → Except DecodeError Unit
  | [] => .ok ()
  | f :: fs =>
    if f.presence ≠ .optional && !(found.any fun e => e.1 == f.key) then
      .error (.missingField name f.key)
    else checkPresent name found fs

/-- The slots of the fields, each with what was read under its key. -/
def slotsOf (fields : List Field) (found : Found) : List (Option Value) :=
  (fields.filter fun f => !f.isLiteral).map fun f => (found.lookup f.key).join

/-- The slots of a keyed map. -/
def Shape.readKeyed (s : Shape) (r : Reading) (fields : List Field) (e : Pending) :
    Decoder (List (Option Value)) := do
  let found ← e.fold (s.readKeyedEntry r fields) []
  Decoder.ofExcept (checkPresent s.name found fields)
  pure (slotsOf fields found)

/-- A map of a shape. -/
def Shape.readMap (s : Shape) (r : Reading) : Decoder Parts := do
  let e ← s.openCollection r .map
  match s.layout with
  | some (.entries key value) => do
    let entries ← readEntries r s.name key value e
    pure { name := s.name, content := .entries entries, style := e.style }
  | some (.fields fields) => do
    let slots ← s.readKeyed r fields e
    pure { name := s.name, content := .fields slots, style := e.style }
  | _ => Decoder.fail (.unexpectedParts s.name "map layout" "items")

end CborSchema
