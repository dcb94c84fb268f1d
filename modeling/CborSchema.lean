import CborSchema.Catalog
import CborSchema.Codec
import CborSchema.Decode.Array
import CborSchema.Decode.Construct
import CborSchema.Decode.Constructor
import CborSchema.Decode.Map
import CborSchema.Decode.Union
import CborSchema.Decode.Value
import CborSchema.Encode.Chunk
import CborSchema.Encode.Collection
import CborSchema.Encode.Value
import CborSchema.Proofs.Decode.Alike
import CborSchema.Proofs.Decode.Alone
import CborSchema.Proofs.Decode.Bare
import CborSchema.Proofs.Decode.Bounded
import CborSchema.Proofs.Decode.Discriminated
import CborSchema.Proofs.Decode.EntrySets
import CborSchema.Proofs.Decode.Keys
import CborSchema.Proofs.Decode.Limits
import CborSchema.Proofs.Decode.Local
import CborSchema.Proofs.Decode.Respelled
import CborSchema.Proofs.Decode.Simple
import CborSchema.Proofs.Decode.Skipped
import CborSchema.Proofs.Decode.Trees
import CborSchema.Proofs.Decode.Unions
import CborSchema.Proofs.Decode.WireForms
import CborSchema.Proofs.Encode.Cuts
import CborSchema.Proofs.Encode.Items
import CborSchema.Proofs.Guarded.Operations
import CborSchema.Proofs.Guarded.Values
import CborSchema.Proofs.Raw.Kept
import CborSchema.Proofs.Raw.Places
import CborSchema.Proofs.Raw.Spans
import CborSchema.Proofs.Registry.Asked
import CborSchema.Proofs.Registry.Runs
import CborSchema.Proofs.Roundtrip.Arrays
import CborSchema.Proofs.Roundtrip.Constructors
import CborSchema.Proofs.Roundtrip.Depth
import CborSchema.Proofs.Roundtrip.Follows
import CborSchema.Proofs.Roundtrip.Heads
import CborSchema.Proofs.Roundtrip.Integers
import CborSchema.Proofs.Roundtrip.Items
import CborSchema.Proofs.Roundtrip.Literals
import CborSchema.Proofs.Roundtrip.Ordered
import CborSchema.Proofs.Roundtrip.Presence
import CborSchema.Proofs.Roundtrip.Rebuilt
import CborSchema.Proofs.Roundtrip.Slots
import CborSchema.Proofs.Roundtrip.Strings
import CborSchema.Proofs.Roundtrip.Styles
import CborSchema.Proofs.Roundtrip.Threshold
import CborSchema.Proofs.Roundtrip.Tuples
import CborSchema.Proofs.Roundtrip.Values
import CborSchema.Proofs.Roundtrip.Widths
import CborSchema.Proofs.Shape.Inherited
import CborSchema.Proofs.Shape.Layouts
import CborSchema.Proofs.Wire.Grammar
import CborSchema.Registry
import CborSchema.Version
import CborSchema.Wire.Operation
