/-!
# Limits

The defaults that bound a run on untrusted input, and the sizes the library itself chooses.

* `Limits.depth`: how deep converted values may nest;
* `Limits.collectionLength`, `Limits.stringLength`: the largest declared array or map, and the
  longest string payload;
* `Limits.ancestors`: the longest chain of parents a schema may inherit from;
* `Limits.chunk`: how many bytes a chunk of an indefinite string holds unless the schema says.
-/

namespace CborSchema.Limits

/-- Converted values nest at most this deep. -/
def depth : Nat := 256

/-- A definite array or map declares at most this many elements or entries. -/
def collectionLength : UInt64 := 1048576

/-- A string payload has at most this many bytes. -/
def stringLength : UInt64 := 16777216

/-- A schema inherits through at most this many parents. -/
def ancestors : Nat := 16

/-- The chunk size of an indefinite string whose schema declares none. -/
def chunk : Nat := 64

end CborSchema.Limits
