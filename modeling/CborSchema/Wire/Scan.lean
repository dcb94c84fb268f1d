import CborSchema.Wire.Head

/-!
# Scans

A scan reads from the bytes that are left and leaves the bytes after what it read, also when it
fails: a truncated head has used up its initial byte.

* `WireError` is what can be wrong with bytes whatever type is expected;
* `Scan` is the monad, `Scan.peek` runs a scan and puts the bytes back;
* `Scan.byte`, `Scan.take`, `Scan.head`, `Scan.closing` read the smallest pieces.

NOT here: strings and whole items (`Wire/Item.lean`).
-/

namespace CborSchema

/-! ## 1. What can be wrong -/

/-- What can be wrong with bytes whatever type is expected of them. -/
inductive WireError where
  /-- The input ends inside the thing named. -/
  | endOfInput (context : String)
  /-- An additional info no head has. -/
  | invalidInfo (info : UInt8) (context : String)
  /-- A break code where an item is due. -/
  | strayBreak (context : String)
  /-- A chunk of another major type or of indefinite length, or an item that no break closes. -/
  | invalidChunk (context : String)
  /-- Items nest deeper than allowed. -/
  | tooDeep (max : Nat)
  /-- A length beyond its limit. -/
  | tooLong (field : String) (length max : UInt64)
  deriving DecidableEq, Repr

/-- The text of a wire error, its code in front. -/
def WireError.message : WireError → String
  | .endOfInput context => s!"[E001] unexpected end of input while reading {context}"
  | .invalidInfo info context => s!"[E001] invalid additional info {info} in {context}"
  | .strayBreak context => s!"[E001] unexpected break in {context}"
  | .invalidChunk context => s!"[E001] invalid chunk in indefinite {context}"
  | .tooDeep max => s!"[E004] nesting exceeds maximum depth {max}"
  | .tooLong field length max => s!"[E004] {field} length {length} exceeds maximum {max}"

/-! ## 2. The monad -/

/-- A reader of the bytes that are left. -/
def Scan (α : Type) := Bytes → Except WireError α × Bytes

namespace Scan

/-- Run the second scan where the first one stopped. -/
def bind (s : Scan α) (f : α → Scan β) : Scan β := fun bytes =>
  match s bytes with
  | (.ok a, rest) => f a rest
  | (.error e, rest) => (.error e, rest)

instance : Monad Scan where
  pure a := fun bytes => (.ok a, bytes)
  bind := bind

/-- Fail where the scan stands. -/
def fail (e : WireError) : Scan α := fun bytes => (.error e, bytes)

/-- Go on with a result that needed no bytes. -/
def ofExcept : Except WireError α → Scan α
  | .ok a => pure a
  | .error e => fail e

/-- Run a scan and put the bytes back. -/
def peek (s : Scan α) : Scan α := fun bytes => ((s bytes).1, bytes)

@[simp] theorem pure_apply (a : α) (bytes : Bytes) : (pure a : Scan α) bytes = (.ok a, bytes) := rfl

theorem bind_apply (s : Scan α) (f : α → Scan β) (bytes : Bytes) :
    (s >>= f) bytes =
      match s bytes with
      | (.ok a, rest) => f a rest
      | (.error e, rest) => (.error e, rest) := rfl

@[simp] theorem peek_rest (s : Scan α) (bytes : Bytes) : (s.peek bytes).2 = bytes := rfl

/-! ## 3. Bytes and heads -/

/-- One byte. -/
def byte (context : String) : Scan UInt8
  | [] => (.error (.endOfInput context), [])
  | b :: rest => (.ok b, rest)

/-- Exactly `n` bytes; where fewer are left none is used up. -/
def take (n : Nat) (context : String) : Scan Bytes := fun bytes =>
  let part := bytes.take n
  if part.length = n then (.ok part, bytes.drop n) else (.error (.endOfInput context), bytes)

theorem take_of_le {n : Nat} {bytes : Bytes} (h : n ≤ bytes.length) (context : String) :
    take n context bytes = (.ok (bytes.take n), bytes.drop n) := by
  simp [take, List.length_take, Nat.min_eq_left h]

theorem take_of_lt {n : Nat} {bytes : Bytes} (h : bytes.length < n) (context : String) :
    take n context bytes = (.error (.endOfInput context), bytes) := by
  have : min n bytes.length ≠ n := by omega
  simp [take, List.length_take, this]

/-- A head. -/
def head (context : String) : Scan Head := do
  let initial ← byte context
  let major := Major.ofInitial initial
  let info := initial &&& 0x1f
  if info < 24 then
    pure ⟨major, info, some info.toUInt64⟩
  else match announcedSize info with
    | some n => do
      let argument ← take n context
      pure ⟨major, info, some (UInt64.ofNat (ofBigEndian argument))⟩
    | none =>
      if info = 31 ∧ major.hasOpenForm then pure ⟨major, info, none⟩
      else fail (.invalidInfo info context)

/-- Whether the next byte is the break code. -/
def atBreak : Scan Bool := fun bytes => (.ok (bytes.head? == some breakByte), bytes)

/-- The break code that closes an indefinite item. -/
def closing (context : String) : Scan Unit := do
  let b ← byte context
  if b = breakByte then pure () else fail (.invalidChunk context)

end Scan

end CborSchema
