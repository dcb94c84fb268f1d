import CborSchema.Catalog
import CborSchema.Decode.Error

/-!
# Values built from parts

* `ScalarForm.take` takes a scalar in, in the range of its form;
* `Parts.scalar`, `Parts.variant`, `Catalog.items`, `Catalog.entries`, `Catalog.fields` give the
  parts that a type asks for, each of the type asked for;
* `Catalog.construct` builds a value of a type.
-/

namespace CborSchema

/-! ## 1. Scalars and variants -/

/-- Take a scalar in. The refusals name the form and not the type. -/
def ScalarForm.take : ScalarForm → Scalar → Except DecodeError Scalar
  | .any, s => .ok s
  | .bool, .bool b => .ok (.bool b)
  | .bool, s => .error (.unexpectedParts "bool" "bool" s.kind)
  | .uint64, .uint n => .ok (.uint n)
  | .uint64, s => .error (.unexpectedParts "u64" "uint" s.kind)
  | .uint32, .uint n => if n < 0x100000000 then .ok (.uint n) else .error (.integerOverflow "u32")
  | .uint32, s => .error (.unexpectedParts "u64" "uint" s.kind)
  | .int64, .uint n =>
    if n < 0x8000000000000000 then .ok (.int n.toInt64) else .error (.integerOverflow "i64")
  | .int64, .nint n =>
    if n < 0x8000000000000000 then .ok (.int (-1 - n.toInt64)) else .error (.integerOverflow "i64")
  | .int64, s => .error (.unexpectedParts "i64" "int" s.kind)
  | .bytes, .bytes b => .ok (.bytes b)
  | .bytes, s => .error (.unexpectedParts "Bytes" "bytes" s.kind)
  | .text, .text t => .ok (.text t)
  | .text, s => .error (.unexpectedParts "String" "text" s.kind)
  | .null, .null => .ok .null
  | .null, s => .error (.unexpectedParts "Null" "null" s.kind)

namespace Parts

/-- The refusal of parts that are not what is asked for. -/
def unexpected (p : Parts) (expected : String) : DecodeError :=
  .unexpectedParts p.name expected p.content.kind

/-- The scalar, in a form. -/
def scalar (p : Parts) (form : ScalarForm) : Except DecodeError Scalar :=
  match p.content with
  | .scalar s => form.take s
  | _ => .error (p.unexpected "scalar")

/-- The candidate that was taken, of one of the types listed if any are. -/
def variant (p : Parts) (accepted : Option (List TypeExpr)) : Except DecodeError Value :=
  match p.content, accepted with
  | .variant v, none => .ok v
  | .variant v, some types =>
    if types.contains v.type then .ok v else .error (.objectTypeMismatch p.name)
  | _, _ => .error (p.unexpected "variant")

end Parts

namespace Catalog

/-! ## 2. Parts of a type -/

/-- A value, if it is of a type. -/
def ofType (c : Catalog) (t : TypeExpr) (v : Value) : Except DecodeError Value :=
  if v.type = t then .ok v else .error (.objectTypeMismatch (c.printName t))

/-- The items, each of a type. -/
def items (c : Catalog) (item : TypeExpr) (p : Parts) : Except DecodeError (List Value) :=
  match p.content with
  | .items items => items.mapM (c.ofType item)
  | _ => .error (p.unexpected "items")

/-- The entries, each of a key and a value type. -/
def entries (c : Catalog) (key value : TypeExpr) (p : Parts) :
    Except DecodeError (List (Value × Value)) :=
  match p.content with
  | .entries entries => entries.mapM fun (k, v) => do
    let k ← c.ofType key k
    let v ← c.ofType value v
    pure (k, v)
  | _ => .error (p.unexpected "entries")

/-- Take slots in order, and count the slots left over. -/
def takeSlots (c : Catalog) (name : String) :
    List Take → List (Option Value) → Except DecodeError (List (Option Value) × Nat)
  | [], slots => .ok ([], slots.length)
  | t :: _, [] => .error (.unexpectedParts name (c.printName t.type) "end of fields")
  | t :: ts, none :: slots =>
    if t.optional then do
      let (taken, left) ← c.takeSlots name ts slots
      pure (none :: taken, left)
    else .error (.unexpectedParts name "present field" "absent field")
  | t :: ts, some v :: slots => do
    let v ← c.ofType t.type v
    let (taken, left) ← c.takeSlots name ts slots
    pure (some v :: taken, left)

/-- The slots taken, and how many were left over. -/
def fields (c : Catalog) (takes : List Take) (p : Parts) :
    Except DecodeError (List (Option Value) × Nat) :=
  match p.content with
  | .fields slots => c.takeSlots p.name takes slots
  | _ => .error (p.unexpected "fields")

end Catalog

/-! ## 3. Declared types -/

namespace Shape

/-- One slot for each field that is no literal; only a required one must be there. -/
def takes (s : Shape) : List Take :=
  s.fields.filterMap fun f =>
    match f.body with
    | .value type presence => some ⟨type, presence != .required⟩
    | .literal _ => none

/-- What a type of the shape has to ask for. -/
def asks (s : Shape) : Asks :=
  if s.kind = .union then .variant none
  else match s.layout with
    | some (.fields _) => .fields none
    | some (.items item) => .items item
    | some (.entries key value) => .entries key value
    | none => .scalar

/-- What a declared type asks for, or else what its shape has. -/
def asksFor (s : Shape) (conversion : Conversion) : Asks :=
  match conversion.asks with
  | .byShape => s.asks
  | asks => asks

/-- The form in which a type of the shape takes a scalar in. -/
def scalarForm (s : Shape) (conversion : Conversion) : ScalarForm :=
  match s.kind with
  | .scalar p => conversion.form.getD p.form
  | _ => .any

end Shape

namespace Catalog

/-- The content that is asked for, and how many slots were left over. -/
def contentOf (c : Catalog) (shape : Shape) (conversion : Conversion) (p : Parts) :
    Asks → Except DecodeError (Content Value × Nat)
  | .byShape | .scalar => do
    let s ← p.scalar (shape.scalarForm conversion)
    pure (.scalar s, 0)
  | .variant accepted => do
    let v ← p.variant accepted
    pure (.variant v, 0)
  | .items item => do
    let items ← c.items item p
    pure (.items items, 0)
  | .entries key value => do
    let entries ← c.entries key value p
    pure (.entries entries, 0)
  | .fields takes => do
    let (slots, untaken) ← c.fields (takes.getD shape.takes) p
    pure (.fields slots, untaken)

/-- A value of a declared type. -/
def constructDeclared (c : Catalog) (t : TypeExpr) (conversion : Conversion) (shape : Shape)
    (p : Parts) : Except DecodeError Value := do
  if let some reason := conversion.reject then throw (.invalid (c.printName t) reason)
  let (content, untaken) ← c.contentOf shape conversion p (shape.asksFor conversion)
  pure (.node t content {
    alternative := p.alternative
    observed := p.style
    emit := if conversion.keepsStyle then some p.style else none
    raw := p.raw
    untaken })

/-! ## 4. All types -/

/-- A scalar of a type that keeps nothing but it. -/
def constructScalar (t : TypeExpr) (form : ScalarForm) (p : Parts) : Except DecodeError Value := do
  let s ← p.scalar form
  pure (.ofScalar t s)

/-- An ordered map. Keys are compared after decoding, so two encodings of one key collide. -/
def constructMap (c : Catalog) (key value : TypeExpr) (p : Parts) : Except DecodeError Value := do
  let entries ← c.entries key value p
  match orderEntries (c.compareKeys key) 0 [] entries with
  | .ok ordered => pure (.node (.map key value) (.entries ordered) {})
  | .error position =>
    throw (.duplicateKey (c.printName (.map key value)) s!"entry {position}")

/-- A value of a type, built from the parts of a decoded item. -/
def construct (c : Catalog) (t : TypeExpr) (shape : Shape) (p : Parts) : Except DecodeError Value :=
  match t with
  | .bool => constructScalar .bool .bool p
  | .uint64 => constructScalar .uint64 .uint64 p
  | .uint32 => constructScalar .uint32 .uint32 p
  | .int64 => constructScalar .int64 .int64 p
  | .text => constructScalar .text .text p
  | .bytes => constructScalar .bytes .bytes p
  | .null => constructScalar .null .null p
  | .embedded =>
    match p.content with
    | .scalar (.bytes payload) => .ok (.ofEmbedded payload p.raw)
    | .scalar s => .error (.unexpectedParts "EncodedValue" "bytes" s.kind)
    | _ => .error (p.unexpected "scalar")
  | .list item => do
    let items ← c.items item p
    pure (.ofItems item items)
  | .map key value => c.constructMap key value p
  | .framedList item => do
    let items ← c.items item p
    pure (.framedList item items p.style.indefinite)
  | .taggedSet item => do
    let items ← c.items item p
    pure (.taggedSet item items p.style.tagged)
  | .anyConstructor field =>
    match p.alternative with
    | some index => do
      let fields ← c.items field p
      pure (.anyConstructor field index fields)
    | none => .error (.unexpectedParts "Constr" "constructor index" "none")
  | .named name => c.constructDeclared (.named name) (c.declared name).conversion shape p

end Catalog

end CborSchema
