import CborSchema.Proofs.Guarded.Scans
import CborSchema.Proofs.Wire.Grammar
import CborSchema.Wire.Operation

/-!
# Operations at a position

A cursor is asked one thing after another, and many an operation is refused in the middle of an
item. The type of a cursor holds its position within the buffer. That it would stay there by itself
is said of a machine whose position may be anywhere, and which faults where the number of bytes left
would fall below zero.

* `Operation.looksAhead`, `Operation.verbatim` -- the operations that use no bytes up, and the
  answers that are bytes of the buffer;
* `Operation.Keeps` -- what one operation keeps of a cursor, answered or refused;
* `Operation.guarded`, `Machine.after` -- one operation, and a row of them, at a position of a
  buffer;
* `Operation.keeps`, `Operation.tracks` -- one operation keeps all of this, and ends on the machine
  as it does on the cursor;
* `Cursor.machine_after` -- so a row of operations leaves the machine where it leaves the cursor;
* `Cursor.stays_sound` -- **a cursor stays sound**, whatever was asked of it and whatever was
  refused.
-/

namespace CborSchema

/-! ## 1. What an operation keeps -/

namespace Operation

/-- Whether an operation uses no bytes up, whatever it finds. -/
def looksAhead : Operation → Bool
  | peekByte _ => true
  | peekHead _ => true
  | atBreak => true
  | length _ _ _ => true
  | _ => false

/-- The bytes of an answer that are the ones used up for it. Those of an indefinite string are not:
    they are joined from its chunks. -/
def verbatim : (o : Operation) → o.Answer → Option Bytes
  | take _ _, part => some part
  | payload h _ _, part => if h.isIndefinite then none else some part
  | item _, part => some part
  | _, _ => none

/-- What an operation keeps of a cursor `c` where it ends with `r` and leaves `c'`. -/
structure Keeps (o : Operation) (c : Cursor) (r : Except WireError o.Answer)
    (c' : Cursor) : Prop where
  buffer : c'.buffer = c.buffer
  forward : c.position ≤ c'.position
  within : c'.position ≤ c.buffer.length
  /-- The bytes that are left are counted exactly. -/
  counted : c'.remaining = c'.rest.length ∧ c'.position + c'.remaining = c.buffer.length
  ahead : o.looksAhead = true → c' = c
  /-- Of a number of bytes that is refused none is used up. -/
  refused : ∀ n context e, o = take n context → r = .error e → c' = c
  verbatim : ∀ a part, r = .ok a → o.verbatim a = some part →
    part = c.slice c.position c'.position ∧ c.position + part.length = c'.position

/-- What looks ahead leaves the bytes. -/
theorem scan_ahead {o : Operation} (h : o.looksAhead = true) (bytes : Bytes) :
    (o.scan bytes).2 = bytes := by
  cases o with
  | peekByte context => rfl
  | peekHead context => rfl
  | atBreak => rfl
  | length head max field =>
    show (Scan.ofExcept (head.boundedLength max field) bytes).2 = bytes
    cases head.boundedLength max field <;> rfl
  | _ => cases h

/-- A payload whose length is given is the bytes that were used up for it. -/
theorem payload_verbatim {h : Head} (ha : h.isIndefinite = false) (max : UInt64)
    (context : String) : (Scan.payload h max context).Yields fun part u => part = u := by
  refine (Scan.payload_yields h max context).mono fun payload u hp => ?_
  cases hp with
  | definite _ _ _ => rfl
  | indefinite hn _ _ =>
    rw [Head.isIndefinite, hn] at ha
    cases ha

end Operation

namespace Cursor

/-- Bytes that a scan answers with as it used them up lie between the two positions. -/
theorem run_verbatim {s : Scan Bytes} (hs : s.Yields fun part u => part = u) (c : Cursor)
    {part : Bytes} (h : (c.run s).1 = .ok part) : part = c.slice c.position (c.run s).2.position ∧
      c.position + part.length = (c.run s).2.position := by
  obtain ⟨u, hu, hreads, rfl⟩ := hs c.rest part (s c.rest).2 (Prod.ext h rfl)
  have hfront : part <+: c.rest := ⟨_, hu.symm⟩
  rw [run_reads hreads hfront]
  exact ⟨(slice_behind hfront).symm, rfl⟩

/-- Of a number of bytes that is refused none is used up. -/
theorem run_take_refused (c : Cursor) {n : Nat} {context : String} {e : WireError}
    (h : (c.run (Scan.take n context)).1 = .error e) : (c.run (Scan.take n context)).2 = c := by
  rcases Nat.lt_or_ge c.rest.length n with hn | hn
  · rw [run_still (Scan.take_of_lt hn context)]
  · have hok : (c.run (Scan.take n context)).1 = .ok (c.rest.take n) :=
      congrArg Prod.fst (Scan.take_of_le hn context)
    rw [hok] at h
    cases h

end Cursor

/-! ## 2. Operations at a position -/

/-- The machine at the position of a cursor. -/
def Cursor.machine (c : Cursor) (depth : Nat) : Machine Place := ⟨⟨c.buffer, c.position⟩, depth⟩

/-- An operation at a position of a buffer. -/
def Operation.guarded : (o : Operation) → GuardedDecoder o.Answer
  | byte context => Guarded.byte context
  | peekByte context => Guarded.peekByte context
  | take n context => Guarded.take n context
  | head context => Guarded.head context
  | peekHead context => Guarded.lookAhead (Guarded.head context)
  | atBreak => Guarded.atBreak
  | closing context => Guarded.closing context
  -- any head may be asked for its length, so no argument is no fault here: it counts as zero
  | length h max field => Guarded.ofExcept ((h.boundedLength max field).mapError .wire)
  | payload h max context => Guarded.payload h max context
  | skip depth => Guarded.skip depth
  | item depth => Guarded.item depth

/-- The machine that a row of operations leaves. -/
def Machine.after (m : Machine Place) (asked : List Operation) : Machine Place :=
  asked.foldl (fun m o => (o.guarded m).2) m

namespace Tracks

variable {α : Type} {g : GuardedDecoder α} {s : Scan α}

/-- A scan that a machine tracks does not take a cursor back. -/
theorem forward (h : Tracks g s) (c : Cursor) : c.position ≤ (c.run s).2.position := by
  obtain ⟨r, stop, hfrom, hto, hs, _⟩ := h c.buffer c.position 0 c.position_le
  rw [Cursor.run_stop hto hs]
  exact hfrom

/-- **From the position of a cursor the machine ends as the cursor does**, and at its new
    position. -/
theorem run (h : Tracks g s) (c : Cursor) (depth : Nat) :
    g (c.machine depth) =
      (.ofExcept ((c.run s).1.mapError .wire), (c.run s).2.machine depth) := by
  obtain ⟨r, stop, _, hto, hs, hm⟩ := h c.buffer c.position depth c.position_le
  rw [Cursor.run_stop hto hs]
  exact hm

end Tracks

namespace Operation

/-- At a position an operation ends as the scan that it runs. -/
theorem tracks (o : Operation) : Tracks o.guarded o.scan := by
  cases o with
  | byte context => exact .byte context
  | peekByte context => exact .peekByte context
  | take n context => exact .take n context
  | head context => exact .head context
  | peekHead context => exact (Tracks.head context).lookAhead
  | atBreak => exact .atBreak
  | closing context => exact .closing context
  | length h max field => exact .ofExcept _
  | payload h max context => exact .payload h max context
  | skip depth => exact .skip depth
  | item depth => exact .item depth

/-- **One operation keeps a cursor sound**, whether it answers or is refused. -/
theorem keeps (o : Operation) (c : Cursor) : o.Keeps c (c.perform o).1 (c.perform o).2 where
  buffer := rfl
  forward := o.tracks.forward c
  within := (c.perform o).2.position_le
  counted := by
    refine ⟨List.length_drop.symm, ?_⟩
    exact Nat.add_sub_cancel' (c.perform o).2.position_le
  ahead h := by
    have hstill : o.scan c.rest = ((o.scan c.rest).1, c.rest) := Prod.ext rfl (scan_ahead h c.rest)
    rw [Cursor.perform, Cursor.run_still hstill]
  refused n context e ho hr := by
    subst ho
    exact c.run_take_refused hr
  verbatim a part hr hpart := by
    cases o with
    | take n context =>
      obtain rfl := Option.some.inj hpart
      exact c.run_verbatim ((Scan.take_yields n context).mono fun _ _ h => h.1.symm) hr
    | payload h max context =>
      have hpart' : (if h.isIndefinite then none else some a) = some part := hpart
      split at hpart'
      · cases hpart'
      · rename_i hdefinite
        obtain rfl := Option.some.inj hpart'
        exact c.run_verbatim (payload_verbatim (Bool.eq_false_iff.mpr hdefinite) max context) hr
    | item depth =>
      obtain rfl := Option.some.inj hpart
      exact c.run_verbatim ((Scan.item_yields depth).mono fun _ _ h => h.1) hr
    | _ => cases hpart

end Operation

/-! ## 3. Rows of operations -/

namespace Cursor

theorem after_buffer (c : Cursor) (asked : List Operation) : (c.after asked).buffer = c.buffer := by
  induction asked generalizing c with
  | nil => rfl
  | cons o asked ih => exact (ih (c.perform o).2).trans (o.keeps c).buffer

/-- **A row of operations leaves the machine where it leaves the cursor**: no operation in it
    faults, and one that is refused leaves both at the same place. -/
theorem machine_after (c : Cursor) (depth : Nat) (asked : List Operation) :
    (c.machine depth).after asked = (c.after asked).machine depth := by
  induction asked generalizing c with
  | nil => rfl
  | cons o asked ih =>
    show Machine.after (o.guarded (c.machine depth)).2 asked = _
    rw [o.tracks.run c depth]
    exact ih (c.perform o).2

/-- **A cursor stays sound, whatever is asked of it.** Behind any row of operations on any buffer,
    of which any may have been refused, the next operation keeps the buffer, goes on within it and
    never back, counts the bytes that are left exactly, does not move where it looks ahead or a
    number of bytes is refused, and hands out exactly the bytes that it moved over. A machine whose
    position nothing holds within the buffer goes through the same positions: every operation ends
    on it as on the cursor, and how many bytes are left never falls below zero. -/
theorem stays_sound (buffer : Bytes) (asked : List Operation) (o : Operation) (depth : Nat) :
    let c := (ofBytes buffer).after asked
    let r := (c.perform o).1
    let c' := (c.perform o).2
    c.buffer = buffer ∧ o.Keeps c r c' ∧
    ((ofBytes buffer).machine depth).after asked = c.machine depth ∧
    o.guarded (c.machine depth) = (.ofExcept (r.mapError .wire), c'.machine depth) ∧
    Guarded.remaining (c'.machine depth) = (.answer c'.rest.length, c'.machine depth) := by
  intro c r c'
  refine ⟨after_buffer _ asked, o.keeps c, machine_after _ depth asked, o.tracks.run c depth, ?_⟩
  rw [← (o.keeps c).counted.1]
  exact Guarded.remaining_of_le c'.position_le

/-- An array that breaks off in its second head is refused behind the first byte of that head, more
    bytes than are left are refused there too, and the next byte is the last one. -/
example : ((ofBytes [0x82, 0x19, 0x01]).after [.skip 4, .take 9 "part", .byte "next"]).position =
    3 := by
  decide

end Cursor

end CborSchema
