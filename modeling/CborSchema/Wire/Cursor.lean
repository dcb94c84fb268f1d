import CborSchema.Wire.Item

/-!
# Cursors

A cursor is a buffer and a position in it. It outlives a failed scan: the next one goes on where
the failed one stopped.

* `Cursor.run` runs a scan on the bytes behind the position, `Cursor.run_stop` is the cursor it
  leaves;
* `Cursor.slice` gives the bytes between two positions already visited.
-/

namespace CborSchema

/-- A buffer and a position in it. -/
structure Cursor where
  buffer : Bytes
  position : Nat
  position_le : position ≤ buffer.length

namespace Cursor

/-- The start of a buffer. -/
def ofBytes (buffer : Bytes) : Cursor := ⟨buffer, 0, Nat.zero_le _⟩

/-- The bytes behind the position. -/
def rest (c : Cursor) : Bytes := c.buffer.drop c.position

/-- How many bytes lie behind the position. -/
def remaining (c : Cursor) : Nat := c.buffer.length - c.position

/-- Whether every byte lies before the position. -/
def isEmpty (c : Cursor) : Bool := c.buffer.length ≤ c.position

/-- Run a scan on the bytes behind the position; the new position is where it stopped. -/
def run (c : Cursor) (s : Scan α) : Except WireError α × Cursor :=
  let (result, rest) := s c.rest
  (result, ⟨c.buffer, c.buffer.length - rest.length, Nat.sub_le _ _⟩)

/-- The cursor stands where the scan stopped. -/
theorem run_stop {c : Cursor} {s : Scan α} {r : Except WireError α} {stop : Nat}
    (hto : stop ≤ c.buffer.length) (hs : s c.rest = (r, c.buffer.drop stop)) :
    c.run s = (r, ⟨c.buffer, stop, hto⟩) := by
  have hlength : c.buffer.length - (c.buffer.drop stop).length = stop := by
    rw [List.length_drop]
    omega
  simp only [run, hs, hlength]

/-- A scan that uses no bytes up leaves the cursor as it is. -/
theorem run_still {c : Cursor} {s : Scan α} {r : Except WireError α} (hs : s c.rest = (r, c.rest)) :
    c.run s = (r, c) := run_stop c.position_le hs

/-- The bytes between two positions. -/
def slice (c : Cursor) (start stop : Nat) : Bytes := (c.buffer.drop start).take (stop - start)

end Cursor

end CborSchema
