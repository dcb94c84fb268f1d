import CborSchema.Catalog
import CborSchema.Decode.Reading

/-!
# Unions read

The bytes of the next item are taken once. Each candidate, in the order declared, decodes exactly
these bytes on its own, and the first that does wins. A faulty declaration is no mismatch: it ends
the run.
-/

namespace CborSchema

/-- The first candidate that decodes the bytes; `failed` are the failures before. -/
def firstCandidate (r : Reading) (catalog : Catalog) (name : String) (span : Bytes) :
    List (String × DecodeError) → List TypeExpr → Outcome DecodeError Value
  | failed, [] => Outcome.fail (.noMatchingCandidate name failed)
  | failed, t :: ts =>
    let trial := (r.part t).whole span
    match trial.result with
    | .ok v => ⟨.ok v, trial.reached⟩
    | .error (.config e) => ⟨.error (.config e), trial.reached⟩
    | .error e =>
      let others := firstCandidate r catalog name span (failed ++ [(catalog.printName t, e)]) ts
      ⟨others.result, trial.reached ++ others.reached⟩

/-- A union of a shape. -/
def Shape.readUnion (s : Shape) (r : Reading) (catalog : Catalog) : Decoder Parts := do
  let span ← Scan.item r.depth
  let v ← fun rest => do
    let v ← firstCandidate r catalog s.name span [] s.candidates
    pure (v, rest)
  pure { name := s.name, content := .variant v }

end CborSchema
