import CborSchema.Decode.Scalar
import CborSchema.Proofs.Guarded.Scans

/-!
# Guarded scalars

Scalars, literals and the parts of a value, read at a position of a buffer.

* `GuardedReading` -- what the guarded readers of the kinds share;
* `Guarded.uint`, `Guarded.int`, `Guarded.readScalar`, `Guarded.expectLiteral` -- the guarded
  readers;
* `Mirrors` -- a guarded reading that counts its depth from above where a reading counts from below;
* `Mirrors.readScalar`, `Mirrors.expectLiteral` -- **an integer has an argument wherever one is
  taken**.
-/

namespace CborSchema

/-- What the guarded readers of the kinds share. -/
structure GuardedReading where
  options : DecodeOptions
  /-- How a part is read. -/
  part : TypeExpr → GuardedDecoder Value

namespace Guarded

/-! ## 1. Scalars -/

/-- The unsigned integer a head stands for. -/
def uint (h : Head) (name : String) : GuardedDecoder UInt64 :=
  match h.major with
  | .unsigned => argument h
  | major => refuse (.unexpectedMajor name "unsigned integer" major)

/-- The integer a head stands for, of either sign. -/
def int (h : Head) (name : String) : GuardedDecoder Scalar :=
  match h.major with
  | .unsigned => do
    let n ← argument h
    pure (.uint n)
  | .negative => do
    let n ← argument h
    pure (.nint n)
  | major => refuse (.unexpectedMajor name "integer" major)

/-- The payload of a string whose head was just read. -/
def readPayload (s : Shape) (r : GuardedReading) (major : Major) (h : Head) :
    GuardedDecoder Bytes := do
  if h.major ≠ major then refuse (.unexpectedMajor s.name major.name h.major)
  else
    ofExcept (s.requireFraming h.isIndefinite)
    let payload ← payload h r.options.maxStringLength s.name
    ofExcept (s.checkSize payload)
    pure payload

/-- A scalar of a kind, whose head was just read. -/
def readAfterHead (s : Shape) (r : GuardedReading) (h : Head) : Primitive → GuardedDecoder Scalar
  | .bool => do
    let b ← ofExcept (h.truth s.name)
    pure (.bool b)
  | .null => do
    ofExcept (h.null s.name)
    pure .null
  | .uint => do
    let n ← uint h s.name
    pure (.uint n)
  | .int => int h s.name
  | .bytes => do
    let payload ← readPayload s r .bytes h
    pure (.bytes payload)
  | .embedded => do
    let payload ← readPayload s r .bytes h
    pure (.bytes payload)
  | .text => do
    let payload ← readPayload s r .text h
    let text ← ofExcept (readText payload s.name)
    pure (.text text)

/-- A scalar of a shape. -/
def readScalar (s : Shape) (r : GuardedReading) (p : Primitive) : GuardedDecoder Parts := do
  let h ← head s.name
  let scalar ← readAfterHead s r h p
  pure {
    name := s.name
    content := .scalar scalar
    style := { indefinite := p.isString && h.isIndefinite } }

/-! ## 2. Literals -/

/-- Whether the item whose head was just read is a literal. -/
def matchesLiteral (name : String) (maxStringLength : UInt64) (h : Head) :
    Literal → GuardedDecoder Bool
  | .int n => pure <|
    match h.major, h.arg with
    | .unsigned, some arg => 0 ≤ n && arg == wireMagnitude n
    | .negative, some arg => n < 0 && arg == wireMagnitude n
    | _, _ => false
  | .bool b => pure <|
    match h.truth name with
    | .ok found => found == b
    | .error _ => false
  | .text s =>
    if h.major = .text then do
      let payload ← payload h maxStringLength name
      pure (payload == textPayload s)
    else pure false

/-- Read a field that must hold a literal. -/
def expectLiteral (name : String) (maxStringLength : UInt64) (key : FieldKey) (literal : Literal) :
    GuardedDecoder Unit := do
  let h ← head name
  if ← matchesLiteral name maxStringLength h literal then pure ()
  else refuse (.literalMismatch name key literal)

end Guarded

/-! ## 3. Readings and their guarded ones -/

/-- A guarded reading at a depth and a reading with the nesting that is left below: together they
    make up the depth that is allowed, and the parts are read alike. -/
structure Mirrors (depth : Nat) (g : GuardedReading) (r : Reading) : Prop where
  options : g.options = r.options
  levels : depth + r.depth = r.options.maxDepth
  part : ∀ t, Follows depth Eq (g.part t) (r.part t)

namespace Follows

variable {depth : Nat} {h : Head}

/-- **An unsigned integer has an argument.** -/
theorem uint (hs : h.Sound) (name : String) :
    Follows depth Eq (Guarded.uint h name) (Decoder.ofExcept (h.uint name)) := by
  unfold Guarded.uint Head.uint
  cases hm : h.major with
  | unsigned => exact argument (hs.arg_ne_none (by rw [hm]; rfl))
  | _ => exact refuse _

/-- **An integer of either sign has an argument.** -/
theorem int (hs : h.Sound) (name : String) :
    Follows depth Eq (Guarded.int h name) (Decoder.ofExcept (h.int name)) := by
  unfold Guarded.int Head.int
  cases hm : h.major with
  | unsigned => exact argument_bind (hs.arg_ne_none (by rw [hm]; rfl)) (pure rfl)
  | negative => exact argument_bind (hs.arg_ne_none (by rw [hm]; rfl)) (pure rfl)
  | _ => exact refuse _

theorem matchesLiteral (name : String) (maxStringLength : UInt64) (h : Head) (literal : Literal) :
    Follows depth Eq (Guarded.matchesLiteral name maxStringLength h literal)
      (CborSchema.matchesLiteral name maxStringLength h literal) := by
  unfold Guarded.matchesLiteral CborSchema.matchesLiteral
  cases literal with
  | int n => exact pure rfl
  | bool b => exact pure rfl
  | text s =>
    dsimp only
    split
    · refine (payload h maxStringLength name).andThen fun payload => ?_
      exact pure rfl
    · exact pure rfl

theorem expectLiteral (name : String) (maxStringLength : UInt64) (key : FieldKey)
    (literal : Literal) :
    Follows depth Eq (Guarded.expectLiteral name maxStringLength key literal)
      (CborSchema.expectLiteral name maxStringLength key literal) := by
  refine (head name).bind fun h _ heq => ?_
  obtain ⟨rfl, _⟩ := heq
  refine (matchesLiteral name maxStringLength h literal).andThen fun b => ?_
  split
  · exact pure rfl
  · exact refuse _

end Follows

namespace Mirrors

variable {depth : Nat} {g : GuardedReading} {r : Reading}

theorem readPayload (hr : Mirrors depth g r) (s : Shape) (major : Major) (h : Head) :
    Follows depth Eq (Guarded.readPayload s g major h) (s.readPayload r major h) := by
  unfold Guarded.readPayload Shape.readPayload
  rw [hr.options]
  split
  · exact Follows.refuse _
  · refine (Follows.ofExcept _).andThen fun _ => ?_
    refine (Follows.payload h _ s.name).andThen fun payload => ?_
    exact (Follows.ofExcept _).andThen fun _ => Follows.pure rfl

theorem readAfterHead (hr : Mirrors depth g r) (s : Shape) {h : Head} (hs : h.Sound)
    (p : Primitive) : Follows depth Eq (Guarded.readAfterHead s g h p) (s.readAfterHead r h p) := by
  have hpayload : ∀ (major : Major), Follows depth Eq
      (Guarded.readPayload s g major h >>= fun payload => pure (Scalar.bytes payload))
      (s.readPayload r major h >>= fun payload => pure (Scalar.bytes payload)) := by
    intro major
    refine (hr.readPayload s major h).andThen fun payload => ?_
    exact Follows.pure rfl
  cases p with
  | bool =>
    refine (Follows.ofExcept _).andThen fun b => ?_
    exact Follows.pure rfl
  | null => exact (Follows.ofExcept _).andThen fun _ => Follows.pure rfl
  | uint =>
    refine (Follows.uint hs s.name).andThen fun n => ?_
    exact Follows.pure rfl
  | int => exact Follows.int hs s.name
  | bytes => exact hpayload .bytes
  | embedded => exact hpayload .bytes
  | text =>
    refine (hr.readPayload s .text h).andThen fun payload => ?_
    refine (Follows.ofExcept _).andThen fun text => ?_
    exact Follows.pure rfl

/-- **A scalar.** -/
theorem readScalar (hr : Mirrors depth g r) (s : Shape) (p : Primitive) :
    Follows depth Eq (Guarded.readScalar s g p) (s.readScalar r p) := by
  refine (Follows.head s.name).bind fun h _ heq => ?_
  obtain ⟨rfl, hs⟩ := heq
  refine (hr.readAfterHead s hs p).andThen fun scalar => ?_
  exact Follows.pure rfl

end Mirrors

end CborSchema
