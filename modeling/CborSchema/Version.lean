/-!
# Version

The version of the format that this library reads and writes.
-/

namespace CborSchema

/-- The version of the library. -/
def version : String := "0.1.0"

end CborSchema
