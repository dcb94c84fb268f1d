import CborSchema.Encode.Chunk
import CborSchema.Encode.Writing

/-!
# Scalars written

* `Shape.writePayload`: a string of the fixed size, in chunks if the shape or the value says so.
  A text is cut between characters;
* `Shape.writeScalar`: a scalar of the kind of the shape, an integer under the head width of the
  shape;
* `Literal.bytes`, `FieldKey.bytes`: what stands for a literal and for a map key.
-/

namespace CborSchema

/-! ## 1. Strings -/

/-- The payloads of the chunks of a byte string. -/
def byteChunks (size : Nat) (payload : Bytes) : List Bytes := chunks (fun _ => 1) size payload

/-- The payloads of the chunks of a text, cut between characters. -/
def textChunks (size : Nat) (text : String) : List Bytes :=
  (chunks Char.utf8Size size text.toList).map fun piece => textPayload (String.ofList piece)

/-- A string as indefinite chunks. -/
def chunkedBytes (major : Major) (pieces : List Bytes) : Bytes :=
  indefiniteHead major ++ pieces.flatMap (stringBytes major) ++ [breakByte]

/-- Whether a string is written in chunks. -/
def Shape.chunked (s : Shape) (style : Option ItemStyle) (length : Nat) : Bool :=
  match s.length with
  | .definite => false
  | .indefinite => true
  | .either =>
    (style.any fun style => style.indefinite) || (s.chunkSize.any fun size => size < length)

/-- A string with the given payload, cut into the given pieces where it is written in chunks. -/
def Shape.writePayload (s : Shape) (style : Option ItemStyle) (major : Major) (payload : Bytes)
    (pieces : Nat → List Bytes) : Except EncodeError Bytes := do
  if let some size := s.size then
    if payload.length ≠ size then throw (.sizeMismatch s.name size payload.length)
  if s.chunked style payload.length then
    pure (chunkedBytes major (pieces (s.chunkSize.getD Limits.chunk)))
  else pure (stringBytes major payload)

/-! ## 2. Scalars -/

/-- Refuse an argument that a head of the width of the shape does not hold. -/
def Shape.requireWidth (s : Shape) (argument : UInt64) : Except EncodeError Unit :=
  if s.headWidth.fits argument then .ok () else .error (.integerWidth s.name argument)

/-- A scalar of a kind. -/
def Shape.writeScalarOf (s : Shape) (style : Option ItemStyle) :
    Primitive → Scalar → Except EncodeError Bytes
  | .bool, .bool b => .ok (boolBytes b)
  | .null, .null => .ok nullBytes
  | .uint, .uint n => do
    s.requireWidth n
    pure (headBytes .unsigned n s.headWidth)
  | .int, .uint n => do
    s.requireWidth n
    pure (headBytes .unsigned n s.headWidth)
  | .int, .int n => do
    s.requireWidth (wireMagnitude n)
    pure (intBytes n s.headWidth)
  | .bytes, .bytes payload =>
    s.writePayload style .bytes payload fun size => byteChunks size payload
  | .embedded, .bytes payload =>
    s.writePayload style .bytes payload fun size => byteChunks size payload
  | .text, .text text =>
    s.writePayload style .text (textPayload text) fun size => textChunks size text
  | p, found => .error (.shapeMismatch s.name p.name found.kind)

/-- A scalar of a shape. -/
def Shape.writeScalar (s : Shape) (p : Primitive) (pieces : Pieces) : Except EncodeError Bytes :=
  match pieces.content with
  | .scalar scalar => s.writeScalarOf pieces.style p scalar
  | found => .error (.shapeMismatch s.name "scalar" found.kind)

/-! ## 3. Literals and keys -/

/-- What stands for a literal. -/
def Literal.bytes : Literal → Bytes
  | .int n => intBytes n .minimal
  | .text s => textBytes s
  | .bool b => boolBytes b

/-- What stands for the key of a field in a map. -/
def FieldKey.bytes : FieldKey → Bytes
  | .int n => intBytes n .minimal
  | .text s => textBytes s

end CborSchema
