import CborSchema.Shape.Error
import CborSchema.Wire.Scan

/-!
# Refused inputs

Why an input is not an item of a type. Each error belongs to one of six groups, whose codes stand in
front of the texts.
-/

namespace CborSchema

/-- The groups of errors. -/
inductive ErrorCode where
  /-- The bytes are no item. -/
  | malformed
  /-- The item has another form than the type. -/
  | shape
  /-- No candidate of a union fits. -/
  | union
  /-- A limit is exceeded. -/
  | limit
  /-- The declaration of a type is faulty. -/
  | config
  /-- A value cannot be built or taken apart. -/
  | value
  deriving DecidableEq, Repr

/-- The code of a group. -/
def ErrorCode.text : ErrorCode → String
  | .malformed => "E001"
  | .shape => "E002"
  | .union => "E003"
  | .limit => "E004"
  | .config => "E005"
  | .value => "E006"

/-- The group of a wire error. -/
def WireError.code : WireError → ErrorCode
  | .tooDeep _ => .limit
  | .tooLong _ _ _ => .limit
  | _ => .malformed

/-- Why an input is not an item of a type; `type` is a printed name. -/
inductive DecodeError where
  | wire (error : WireError)
  | invalidUtf8 (context : String)
  | trailingBytes (count : Nat)
  | integerOverflow (type : String)
  | unexpectedMajor (type expected : String) (found : Major)
  | unexpectedSimple (type : String) (found : UInt64)
  | missingTag (type : String) (expected : UInt64)
  | unexpectedTag (type : String) (expected found : UInt64)
  | unknownConstructorTag (type : String) (tag : UInt64)
  | constructorIndexMismatch (type : String) (expected found : UInt64)
  /-- The framing found is the one the type does not accept. -/
  | framingMismatch (type : String) (foundIndefinite : Bool)
  | fieldCount (type : String) (expected found : Nat)
  | missingField (type : String) (key : FieldKey)
  | unknownKey (type key : String)
  | duplicateKey (type key : String)
  | literalMismatch (type : String) (key : FieldKey) (expected : Literal)
  | sizeMismatch (type : String) (expected found : Nat)
  /-- Each candidate failed, in order, for its own reason. -/
  | noMatchingCandidate (type : String) (failures : List (String × DecodeError))
  | config (error : ConfigError)
  | objectTypeMismatch (expected : String)
  | unexpectedParts (type expected found : String)
  | invalid (type reason : String)
  deriving Repr

namespace DecodeError

/-- The group of an error. -/
def code : DecodeError → ErrorCode
  | .wire e => e.code
  | .invalidUtf8 _ => .malformed
  | .trailingBytes _ => .malformed
  | .integerOverflow _ => .malformed
  | .noMatchingCandidate _ _ => .union
  | .config _ => .config
  | .objectTypeMismatch _ => .value
  | .unexpectedParts _ _ _ => .value
  | .invalid _ _ => .value
  | _ => .shape

/-- The name of a framing in messages. -/
def framingName (indefinite : Bool) : String := if indefinite then "indefinite" else "definite"

mutual

/-- The text of an error, its code in front. -/
def message : DecodeError → String
  | .wire e => e.message
  | .invalidUtf8 context => s!"[E001] invalid UTF-8 in {context}"
  | .trailingBytes count => s!"[E001] {count} trailing bytes after item"
  | .integerOverflow type => s!"[E001] integer does not fit {type}"
  | .unexpectedMajor type expected found =>
    s!"[E002] {type}: expected {expected}, found {found.name}"
  | .unexpectedSimple type found => s!"[E002] {type}: unexpected simple value {found}"
  | .missingTag type expected => s!"[E002] {type}: missing tag {expected}"
  | .unexpectedTag type expected found =>
    s!"[E002] {type}: expected tag {expected}, found tag {found}"
  | .unknownConstructorTag type tag => s!"[E002] {type}: tag {tag} is not a constructor tag"
  | .constructorIndexMismatch type expected found =>
    s!"[E002] {type}: expected constructor {expected}, found {found}"
  | .framingMismatch type indefinite =>
    s!"[E002] {type}: expected {framingName (!indefinite)} framing, found {framingName indefinite}"
  | .fieldCount type expected found => s!"[E002] {type}: expected {expected} items, found {found}"
  | .missingField type key => s!"[E002] {type}: missing field {key.printed}"
  | .unknownKey type key => s!"[E002] {type}: unknown key {key}"
  | .duplicateKey type key => s!"[E002] {type}: duplicate key {key}"
  | .literalMismatch type key expected =>
    s!"[E002] {type}: field {key.printed} must be {expected.printed}"
  | .sizeMismatch type expected found => s!"[E002] {type}: expected {expected} bytes, found {found}"
  | .noMatchingCandidate type failures =>
    let reasons := "; ".intercalate (failureMessages failures)
    s!"[E003] no candidate of {type} matched: {reasons}"
  | .config e => e.message
  | .objectTypeMismatch expected => s!"[E006] decoded object is not a {expected}"
  | .unexpectedParts type expected found =>
    s!"[E006] {type}: expected {expected} parts, found {found}"
  | .invalid type reason => s!"[E006] {type}: {reason}"
termination_by structural e => e

/-- The texts of the failures of candidates, each after the candidate's name. -/
def failureMessages : List (String × DecodeError) → List String
  | [] => []
  | f :: fs => failureMessage f :: failureMessages fs
termination_by structural fs => fs

/-- The text of one failure after the candidate's name. -/
def failureMessage : String × DecodeError → String
  | (candidate, e) => candidate ++ ": " ++ e.message
termination_by structural f => f

end

end DecodeError

end CborSchema
