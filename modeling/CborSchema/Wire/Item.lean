import CborSchema.Wire.Scan

/-!
# Strings and whole items

* `Head.boundedLength` is the argument of a head as a length, at most a limit;
* `Scan.payload` reads the bytes of a string whose head was read, joining the chunks of an
  indefinite one;
* `Scan.skip` passes over one whole item and counts how deep it nests, `Scan.item` also gives the
  bytes it passed over.

An indefinite item has no declared end, so its loop gets as many turns as bytes are left and one
more: every turn but the last uses up a byte.
-/

namespace CborSchema

/-- The argument of a head as a length, refused beyond a limit; no argument counts as zero. -/
def Head.boundedLength (h : Head) (max : UInt64) (field : String) : Except WireError Nat :=
  let length := h.arg.getD 0
  if max < length then .error (.tooLong field length max) else .ok length.toNat

namespace Scan

/-! ## 1. Strings -/

/-- The chunks of an indefinite string up to its break, joined; `total` bytes came before. -/
def chunks (major : Major) (max : UInt64) (context : String) : Nat → Nat → Scan Bytes
  | 0, _ => fail (.endOfInput context)
  | turns + 1, total => do
    if ← atBreak then
      closing context
      pure []
    else
      let chunk ← head context
      if chunk.major ≠ major ∨ chunk.isIndefinite then fail (.invalidChunk context)
      else
        let length ← ofExcept (chunk.boundedLength max context)
        if max.toNat < total + length then
          fail (.tooLong context (UInt64.ofNat (min (total + length) (UInt64.size - 1))) max)
        else
          let part ← take length context
          let others ← chunks major max context turns (total + length)
          pure (part ++ others)

/-- The payload of a string whose head was just read. -/
def payload (h : Head) (max : UInt64) (context : String) : Scan Bytes :=
  if h.isIndefinite then fun bytes => chunks h.major max context (bytes.length + 1) 0 bytes
  else do
    let length ← ofExcept (h.boundedLength max context)
    take length context

/-! ## 2. Items -/

/-- The same scan a number of times. -/
def times : Nat → Scan Unit → Scan Unit
  | 0, _ => pure ()
  | n + 1, s => do
    s
    times n s

/-- The same scan until the break code, which is used up too. -/
def untilBreak (s : Scan Unit) : Nat → Scan Unit
  | 0 => fail (.endOfInput "indefinite item")
  | turns + 1 => do
    if ← atBreak then closing "indefinite item"
    else
      s
      untilBreak s turns

/-- The same scan until the break code, with turns enough for the bytes that are left. -/
def toBreak (s : Scan Unit) : Scan Unit := fun bytes => untilBreak s (bytes.length + 1) bytes

/-- Pass over one item that nests at most the given number of levels, itself included; `max` is
    the nesting that a refusal names. -/
def skipLevels (max : Nat) : Nat → Scan Unit
  | 0 => fail (.tooDeep max)
  | levels + 1 => do
    let h ← head "item"
    match h.major, h.arg with
    | .unsigned, _ => pure ()
    | .negative, _ => pure ()
    | .simple, some _ => pure ()
    | .simple, none => fail (.strayBreak "item")
    | .bytes, some length => do let _ ← take length.toNat "string"
    | .text, some length => do let _ ← take length.toNat "string"
    | .bytes, none => do let _ ← payload h (UInt64.ofNat (UInt64.size - 1)) "string"
    | .text, none => do let _ ← payload h (UInt64.ofNat (UInt64.size - 1)) "string"
    | .array, some n => times n.toNat (skipLevels max levels)
    | .array, none => toBreak (skipLevels max levels)
    | .map, some n => times n.toNat do
      skipLevels max levels
      skipLevels max levels
    | .map, none => toBreak do
      skipLevels max levels
      skipLevels max levels
    | .tag, _ => skipLevels max levels

/-- Pass over one item whose parts lie at most `depth` levels below it. -/
def skip (depth : Nat) : Scan Unit := skipLevels depth (depth + 1)

/-- What a scan passes over. -/
def passed (s : Scan Unit) : Scan Bytes := fun bytes =>
  match s bytes with
  | (.ok (), rest) => (.ok (bytes.take (bytes.length - rest.length)), rest)
  | (.error e, rest) => (.error e, rest)

/-- The exact bytes of one item whose parts lie at most `depth` levels below it. -/
def item (depth : Nat) : Scan Bytes := passed (skip depth)

end Scan

end CborSchema
