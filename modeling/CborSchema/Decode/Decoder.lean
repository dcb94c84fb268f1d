import CborSchema.Decode.Error
import CborSchema.Outcome
import CborSchema.Wire.Item

/-!
# Decoders

A decoder reads from the bytes that are left and answers with a result and the bytes after it. It
also tells which types it reached (`Outcome`).

* scans are decoders whose errors are wire errors;
* `Decoder.spanned` also gives the bytes that were used up;
* `Decoder.whole` runs on bytes that must be used up entirely;
* `Pending` is what is still to come of an array or map, `Pending.fold` runs through it.
-/

namespace CborSchema

/-! ## 1. The monad -/

/-- A reader of the bytes that are left, which tells the types it reached. -/
def Decoder (α : Type) := Bytes → Outcome DecodeError (α × Bytes)

namespace Decoder

/-- The next step on the bytes that the first one left. -/
def bind (d : Decoder α) (f : α → Decoder β) : Decoder β := fun bytes =>
  (d bytes).bind fun (a, rest) => f a rest

instance : Monad Decoder where
  pure a := fun bytes => pure (a, bytes)
  bind := bind

/-- Fail. -/
def fail (e : DecodeError) : Decoder α := fun _ => Outcome.fail e

/-- Go on with a result that needed no bytes. -/
def ofExcept (r : Except DecodeError α) : Decoder α := fun bytes =>
  Outcome.ofExcept (r.map fun a => (a, bytes))

/-- A scan as a decoder. -/
def ofScan (s : Scan α) : Decoder α := fun bytes =>
  match s bytes with
  | (.ok a, rest) => Outcome.ofExcept (.ok (a, rest))
  | (.error e, _) => Outcome.fail (.wire e)

instance : MonadLift Scan Decoder := ⟨ofScan⟩

theorem pure_apply (a : α) (bytes : Bytes) :
    (pure a : Decoder α) bytes = (pure (a, bytes) : Outcome DecodeError (α × Bytes)) := rfl

theorem bind_apply (d : Decoder α) (f : α → Decoder β) (bytes : Bytes) :
    (d >>= f) bytes = (d bytes >>= fun p => f p.1 p.2) := rfl

/-- A result and the bytes that were used up for it. -/
def spanned (d : Decoder α) : Decoder (α × Bytes) := fun bytes => do
  let (a, rest) ← d bytes
  pure ((a, bytes.take (bytes.length - rest.length)), rest)

/-- Run on bytes that must be used up entirely. -/
def whole (d : Decoder α) (bytes : Bytes) : Outcome DecodeError α := do
  let (a, rest) ← d bytes
  if rest.isEmpty then pure a else Outcome.fail (.trailingBytes rest.length)

/-! ## 2. Pending -/

/-- The same step a number of times. -/
def times (step : σ → Decoder σ) : Nat → σ → Decoder σ
  | 0, s => pure s
  | n + 1, s => do
    let s ← step s
    times step n s

/-- The same step until the break code, at most the given number of turns. -/
def untilBreak (step : σ → Decoder σ) : Nat → σ → Decoder σ
  | 0, _ => fail (.wire (.endOfInput "indefinite item"))
  | turns + 1, s => do
    if ← Scan.atBreak then
      Scan.closing "indefinite item"
      pure s
    else
      let s ← step s
      untilBreak step turns s

end Decoder

/-- What is still to come of an array or map. -/
inductive Pending where
  /-- A declared number of elements or entries. -/
  | counted (left : Nat)
  /-- All up to a break code. -/
  | toBreak
  deriving DecidableEq, Repr

namespace Pending

/-- Whether another element follows, and what is to come after it. The break code is used up as
    soon as nothing follows. -/
def another : Pending → Decoder (Bool × Pending)
  | counted 0 => pure (false, counted 0)
  | counted (n + 1) => pure (true, counted n)
  | toBreak => do
    if ← Scan.atBreak then
      Scan.closing "indefinite item"
      pure (false, counted 0)
    else pure (true, toBreak)

/-- One step for each element that is still to come. Without a declared number there are turns
    enough for the bytes that are left. -/
def fold (step : σ → Decoder σ) : Pending → σ → Decoder σ
  | counted n, s => Decoder.times step n s
  | toBreak, s => fun bytes => Decoder.untilBreak step (bytes.length + 1) s bytes

end Pending

end CborSchema
