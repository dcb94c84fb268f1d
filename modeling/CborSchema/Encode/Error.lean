import CborSchema.Decode.Error

/-!
# Refused values

Why a value cannot be written as an item of a type.
-/

namespace CborSchema

/-- Why a value cannot be written as an item of a type; `type` is a printed name. -/
inductive EncodeError where
  | config (error : ConfigError)
  | typeMismatch (expected : String)
  | notACandidate (type : String)
  | fieldCount (type : String) (expected found : Nat)
  | missingField (type : String) (key : FieldKey)
  | sizeMismatch (type : String) (expected found : Nat)
  | shapeMismatch (type expected found : String)
  | missingAlternative (type : String)
  | integerWidth (type : String) (value : UInt64)
  | tooDeep (max : Nat)
  deriving DecidableEq, Repr

namespace EncodeError

/-- The group of an error. -/
def code : EncodeError → ErrorCode
  | .config _ => .config
  | .fieldCount _ _ _ => .shape
  | .missingField _ _ => .shape
  | .sizeMismatch _ _ _ => .shape
  | .tooDeep _ => .limit
  | _ => .value

/-- The text of an error, its code in front. -/
def message : EncodeError → String
  | .config e => e.message
  | .typeMismatch expected => s!"[E006] value is not a {expected}"
  | .notACandidate type => s!"[E006] {type}: value is not one of the union candidates"
  | .fieldCount type expected found =>
    s!"[E002] {type}: expected {expected} field slots, found {found}"
  | .missingField type key => s!"[E002] {type}: missing field {key.printed}"
  | .sizeMismatch type expected found => s!"[E002] {type}: expected {expected} bytes, found {found}"
  | .shapeMismatch type expected found =>
    s!"[E006] {type}: expected {expected} parts, found {found}"
  | .missingAlternative type =>
    s!"[E006] {type}: any-index constructor value carries no alternative"
  | .integerWidth type value =>
    s!"[E006] {type}: {value} does not fit the configured integer width"
  | .tooDeep max => s!"[E004] nesting exceeds maximum depth {max}"

end EncodeError

end CborSchema
