import CborSchema.Decode.Reading
import CborSchema.Wire.Emit

/-!
# Scalars read

* `Head.truth` reads a truth value off a head: the simple values 20 and 21, whatever the width of
  the head;
* `Shape.readPayload`, `Shape.readScalar` read a scalar of a shape; a string is joined, measured
  and, if it is text, decoded;
* `expectLiteral` accepts exactly the items of one literal.
-/

namespace CborSchema

/-! ## 1. Heads as scalars -/

/-- The truth value a head stands for. -/
def Head.truth (h : Head) (name : String) : Except DecodeError Bool :=
  match h.major, h.arg with
  | .simple, some found =>
    if found = simpleFalse then .ok false
    else if found = simpleTrue then .ok true
    else .error (.unexpectedSimple name found)
  | major, _ => .error (.unexpectedMajor name "bool" major)

/-- Whether a head stands for null. -/
def Head.null (h : Head) (name : String) : Except DecodeError Unit :=
  match h.major, h.arg with
  | .simple, some found =>
    if found = simpleNull then .ok () else .error (.unexpectedSimple name found)
  | major, _ => .error (.unexpectedMajor name "null" major)

/-- The unsigned integer a head stands for. -/
def Head.uint (h : Head) (name : String) : Except DecodeError UInt64 :=
  match h.major with
  | .unsigned => .ok (h.arg.getD 0)
  | major => .error (.unexpectedMajor name "unsigned integer" major)

/-- The integer a head stands for, of either sign. -/
def Head.int (h : Head) (name : String) : Except DecodeError Scalar :=
  match h.major with
  | .unsigned => .ok (.uint (h.arg.getD 0))
  | .negative => .ok (.nint (h.arg.getD 0))
  | major => .error (.unexpectedMajor name "integer" major)

/-! ## 2. Strings -/

/-- The text that bytes encode, if they encode any. -/
def decodeText (payload : Bytes) : Option String := String.fromUTF8? payload.toByteArray

/-- The text that bytes encode; `context` names the place in a refusal. -/
def readText (payload : Bytes) (context : String) : Except DecodeError String :=
  match decodeText payload with
  | some text => .ok text
  | none => .error (.invalidUtf8 context)

/-- Refuse a payload that has not the size the shape fixes. -/
def Shape.checkSize (s : Shape) (payload : Bytes) : Except DecodeError Unit :=
  match s.size with
  | none => .ok ()
  | some size =>
    if payload.length = size then .ok () else .error (.sizeMismatch s.name size payload.length)

/-- The payload of a string whose head was just read. -/
def Shape.readPayload (s : Shape) (r : Reading) (major : Major) (h : Head) : Decoder Bytes := do
  if h.major ≠ major then Decoder.fail (.unexpectedMajor s.name major.name h.major)
  else
    Decoder.ofExcept (s.requireFraming h.isIndefinite)
    let payload ← Scan.payload h r.options.maxStringLength s.name
    Decoder.ofExcept (s.checkSize payload)
    pure payload

/-! ## 3. Scalars -/

/-- A scalar of a kind, whose head was just read. -/
def Shape.readAfterHead (s : Shape) (r : Reading) (h : Head) : Primitive → Decoder Scalar
  | .bool => do
    let b ← Decoder.ofExcept (h.truth s.name)
    pure (.bool b)
  | .null => do
    Decoder.ofExcept (h.null s.name)
    pure .null
  | .uint => do
    let n ← Decoder.ofExcept (h.uint s.name)
    pure (.uint n)
  | .int => Decoder.ofExcept (h.int s.name)
  | .bytes => do
    let payload ← s.readPayload r .bytes h
    pure (.bytes payload)
  | .embedded => do
    let payload ← s.readPayload r .bytes h
    pure (.bytes payload)
  | .text => do
    let payload ← s.readPayload r .text h
    let text ← Decoder.ofExcept (readText payload s.name)
    pure (.text text)

/-- A scalar of a shape. The style tells whether a string was indefinite. -/
def Shape.readScalar (s : Shape) (r : Reading) (p : Primitive) : Decoder Parts := do
  let h ← Scan.head s.name
  let scalar ← s.readAfterHead r h p
  pure {
    name := s.name
    content := .scalar scalar
    style := { indefinite := p.isString && h.isIndefinite } }

/-! ## 4. Literals -/

/-- Whether the item whose head was just read is a literal. -/
def matchesLiteral (name : String) (maxStringLength : UInt64) (h : Head) :
    Literal → Decoder Bool
  | .int n => pure <|
    match h.major, h.arg with
    | .unsigned, some arg => 0 ≤ n && arg == wireMagnitude n
    | .negative, some arg => n < 0 && arg == wireMagnitude n
    | _, _ => false
  | .bool b => pure <|
    match h.truth name with
    | .ok found => found == b
    | .error _ => false
  | .text s =>
    if h.major = .text then do
      let payload ← Scan.payload h maxStringLength name
      pure (payload == textPayload s)
    else pure false

/-- Read a field that must hold a literal. -/
def expectLiteral (name : String) (maxStringLength : UInt64) (key : FieldKey) (literal : Literal) :
    Decoder Unit := do
  let h ← Scan.head name
  if ← matchesLiteral name maxStringLength h literal then pure ()
  else Decoder.fail (.literalMismatch name key literal)

end CborSchema
