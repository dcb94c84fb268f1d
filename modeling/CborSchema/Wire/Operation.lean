import CborSchema.Wire.Cursor

/-!
# Operations

What may be asked of a cursor, one thing after another. Whether an operation answers or is refused,
the next one goes on where it stopped.

* `Operation` is one thing to ask, `Operation.scan` the scan that it runs;
* `Cursor.perform` asks one, `Cursor.after` is the cursor that a row of them leaves.
-/

namespace CborSchema

/-- One thing to ask of a cursor. -/
inductive Operation where
  /-- The next byte. -/
  | byte (context : String)
  /-- The next byte, which is not used up. -/
  | peekByte (context : String)
  /-- Exactly so many bytes. -/
  | take (n : Nat) (context : String)
  /-- The next head. -/
  | head (context : String)
  /-- The next head, which is not used up. -/
  | peekHead (context : String)
  /-- Whether the next byte is the break code. -/
  | atBreak
  /-- The break code. -/
  | closing (context : String)
  /-- The argument of a head as a length. -/
  | length (h : Head) (max : UInt64) (field : String)
  /-- The payload of a string behind a head, whatever head is claimed to be in front. -/
  | payload (h : Head) (max : UInt64) (context : String)
  /-- One item, passed over. -/
  | skip (depth : Nat)
  /-- The exact bytes of one item. -/
  | item (depth : Nat)
  deriving DecidableEq, Repr

namespace Operation

/-- What an operation answers with. -/
def Answer : Operation → Type
  | byte _ => UInt8
  | peekByte _ => UInt8
  | take _ _ => Bytes
  | head _ => Head
  | peekHead _ => Head
  | atBreak => Bool
  | closing _ => Unit
  | length _ _ _ => Nat
  | payload _ _ _ => Bytes
  | skip _ => Unit
  | item _ => Bytes

/-- The scan that an operation runs. -/
def scan : (o : Operation) → Scan o.Answer
  | byte context => Scan.byte context
  | peekByte context => (Scan.byte context).peek
  | take n context => Scan.take n context
  | head context => Scan.head context
  | peekHead context => (Scan.head context).peek
  | atBreak => Scan.atBreak
  | closing context => Scan.closing context
  | length h max field => Scan.ofExcept (h.boundedLength max field)
  | payload h max context => Scan.payload h max context
  | skip depth => Scan.skip depth
  | item depth => Scan.item depth

end Operation

namespace Cursor

/-- The answer or refusal of an operation, and the cursor that it leaves in either case. -/
def perform (c : Cursor) (o : Operation) : Except WireError o.Answer × Cursor := c.run o.scan

/-- The cursor that a row of operations leaves. -/
def after (c : Cursor) (asked : List Operation) : Cursor :=
  asked.foldl (fun c o => (c.perform o).2) c

end Cursor

end CborSchema
