import CborSchema.Proofs.Decode.Cells
import CborSchema.Wire.Cursor

/-!
# The grammar of items

Well-formed items by their productions, apart from every reader and every limit on lengths, and the
skipper as a recogniser of exactly these.

* `WellFormed depth bytes` -- the bytes are one item whose parts lie at most `depth` levels below
  it;
* `Elements depth k bytes` -- the bytes are `k` items in a row, each one level further down;
* `WellFormed.item`, `WellFormed.of_item` -- on bytes that an address space holds the grammar has
  the same items as `Item`, which bounds the joined chunks of a string;
* `Cursor.behind`, `Cursor.run_reads` -- where a cursor is behind what it has read;
* `Cursor.skip_iff_wellFormed` -- **skipping succeeds on exactly the well-formed items**.

A level of the grammar is a step down: an item without parts is well-formed at depth zero. `Item`
counts the item itself too, so it stands one level higher throughout.
-/

namespace CborSchema

/-! ## 1. The productions -/

mutual

/-- One item whose parts lie at most so many levels below it. -/
inductive WellFormed : Nat → Bytes → Prop where
  /-- An integer, or a simple value that is not the break code. -/
  | plain {depth : Nat} {h : Head} {front : Bytes} (hh : h.Form front) (ha : h.arg ≠ none)
      (hm : h.major = .unsigned ∨ h.major = .negative ∨ h.major = .simple) : WellFormed depth front
  /-- A string that says how many bytes it has. -/
  | string {depth : Nat} {h : Head} {n : UInt64} {front payload : Bytes} (hh : h.Form front)
      (hm : h.major = .bytes ∨ h.major = .text) (hn : h.arg = some n)
      (hl : payload.length = n.toNat) : WellFormed depth (front ++ payload)
  /-- A string of definite chunks of its own major type, closed by a break. -/
  | chunked {depth : Nat} {h : Head} {front payload bytes : Bytes} (hh : h.Form front)
      (hm : h.major = .bytes ∨ h.major = .text) (hn : h.arg = none)
      (hc : Chunks h.major bytes payload) : WellFormed depth (front ++ (bytes ++ [breakByte]))
  /-- An array or a map that says how many elements it has. -/
  | counted {depth w : Nat} {h : Head} {n : UInt64} {front bytes : Bytes} (hh : h.Form front)
      (hm : h.major.perElement = some w) (hn : h.arg = some n)
      (hs : Elements depth (n.toNat * w) bytes) : WellFormed depth (front ++ bytes)
  /-- An array or a map that a break closes, behind whole elements. -/
  | opened {depth w k : Nat} {h : Head} {front bytes : Bytes} (hh : h.Form front)
      (hm : h.major.perElement = some w) (hn : h.arg = none) (hs : Elements depth (k * w) bytes) :
      WellFormed depth (front ++ (bytes ++ [breakByte]))
  /-- A tag and the item behind it, one level further down. -/
  | tagged {depth : Nat} {h : Head} {front inner : Bytes} (hh : h.Form front) (hm : h.major = .tag)
      (hi : WellFormed depth inner) : WellFormed (depth + 1) (front ++ inner)

/-- So many items in a row, each one level below what they are in. -/
inductive Elements : Nat → Nat → Bytes → Prop where
  | nil {depth : Nat} : Elements depth 0 []
  | cons {depth k : Nat} {x bytes : Bytes} (hx : WellFormed depth x)
      (hs : Elements (depth + 1) k bytes) : Elements (depth + 1) (k + 1) (x ++ bytes)

end

/-! ## 2. Items of the grammar are items -/

theorem Elements.row {depth k : Nat} {bytes : Bytes} (h : Elements (depth + 1) k bytes) :
    InRow (WellFormed depth) k bytes := by
  induction k generalizing bytes with
  | zero =>
    cases h
    exact .nil
  | succ k ih =>
    cases h with
    | cons hx hs => exact .cons hx (ih hs)

theorem Elements.of_row {depth k : Nat} {bytes : Bytes} (h : InRow (WellFormed depth) k bytes) :
    Elements (depth + 1) k bytes := by
  induction h with
  | nil => exact .nil
  | cons hx _ ih => exact .cons hx ih

/-- Nothing lies below an item that has no level left. -/
theorem Elements.of_zero {k : Nat} {bytes : Bytes} (h : Elements 0 k bytes) :
    k = 0 ∧ bytes = [] := by
  cases h
  exact ⟨rfl, rfl⟩

/-- **A well-formed item is an item**, where its bytes are no more than a head can count. -/
theorem WellFormed.item {depth : Nat} {u : Bytes} (h : WellFormed depth u)
    (hlen : u.length < UInt64.size) : Item (depth + 1) u := by
  -- a payload is bounded by the bytes it stands in, also where it is joined from chunks
  have fits : ∀ {payload : Bytes}, payload.length ≤ u.length →
      payload.length ≤ largestLength.toNat := by
    intro payload hle
    have hsize : UInt64.size = 2 ^ 64 := rfl
    rw [largestLength_toNat]
    omega
  have below : ∀ {k : Nat} {bytes : Bytes}, Elements depth k bytes → bytes.length ≤ u.length →
      InRow (Item depth) k bytes := by
    intro k bytes hs hle
    cases depth with
    | zero =>
      obtain ⟨rfl, rfl⟩ := hs.of_zero
      exact .nil
    | succ depth => exact (hs.row.bounded hle).mono fun x hx => hx.1.item (by omega)
  cases h with
  | plain hh ha hm => exact .plain hh.spelled ha hm
  | string hh hm hn hl => exact .string hh.spelled hm (.definite hn hl (fits (by simp)))
  | chunked hh hm hn hc =>
    have hle := hc.payload_le
    exact .string hh.spelled hm
      (.indefinite hn hc (fits (by simp only [List.length_append]; omega)))
  | counted hh hm hn hs => exact .counted hh.spelled hm hn (below hs (by simp))
  | opened hh hm hn hs =>
    exact .opened hh.spelled hm hn (below hs (by simp only [List.length_append]; omega))
  | tagged hh hm hi =>
    rw [List.length_append] at hlen
    exact .tagged hh.spelled hm (hi.item (by omega))
termination_by depth

/-- An item is well-formed: the grammar only leaves the limit on a joined payload out. -/
theorem WellFormed.of_item {depth : Nat} {u : Bytes} (h : Item (depth + 1) u) :
    WellFormed depth u := by
  have below : ∀ {k : Nat} {bytes : Bytes}, InRow (Item depth) k bytes →
      Elements depth k bytes := by
    intro k bytes hs
    cases depth with
    | zero =>
      cases hs with
      | nil => exact .nil
      | cons hx _ => exact absurd hx id
    | succ depth => exact .of_row (hs.mono fun _ hx => .of_item hx)
  cases h with
  | plain hh ha hm => exact .plain hh.form ha hm
  | string hh hm hp =>
    cases hp with
    | definite hn hl _ => exact .string hh.form hm hn hl
    | indefinite hn hc _ => exact .chunked hh.form hm hn hc
  | counted hh hm hn hs => exact .counted hh.form hm hn (below hs)
  | opened hh hm hn hs => exact .opened hh.form hm hn (below hs)
  | tagged hh hm hi =>
    cases depth with
    | zero => exact absurd hi id
    | succ depth => exact .tagged hh.form hm (.of_item hi)
termination_by depth

/-! ## 3. In front of a cursor -/

namespace Cursor

variable {c : Cursor} {u : Bytes}

/-- The cursor behind some of the bytes in front of it. -/
def behind (c : Cursor) (u : Bytes) (h : u <+: c.rest) : Cursor :=
  ⟨c.buffer, c.position + u.length, by
    have hle := h.length_le
    have hpos := c.position_le
    rw [rest, List.length_drop] at hle
    omega⟩

/-- A scan leaves a cursor behind what it reads. -/
theorem run_reads {α : Type} {s : Scan α} {a : α} (hs : s.Reads u a) (h : u <+: c.rest) :
    c.run s = (.ok a, c.behind u h) := by
  obtain ⟨tail, htail⟩ := id h
  have hto : c.position + u.length ≤ c.buffer.length := (c.behind u h).position_le
  have hstop : c.buffer.drop (c.position + u.length) = tail := by
    rw [← List.drop_drop, show c.buffer.drop c.position = u ++ tail from htail.symm, List.drop_left]
  have hread : s c.rest = (.ok a, c.buffer.drop (c.position + u.length)) := by
    rw [← htail, hs tail, hstop]
  exact run_stop hto hread

/-- What stands in front of a cursor is the slice up to where it goes next. -/
theorem slice_behind (h : u <+: c.rest) : c.slice c.position (c.behind u h).position = u := by
  obtain ⟨tail, htail⟩ := id h
  simp only [slice, behind, Nat.add_sub_cancel_left]
  rw [show c.buffer.drop c.position = u ++ tail from htail.symm, List.take_left]

end Cursor

/-- **Skipping accepts exactly the well-formed items.** In front of any cursor into a buffer that a
    head can count, with any nesting allowed: the skipper succeeds exactly where the bytes that are
    left start with a well-formed item of that nesting; it stops right behind this item, which is
    the only well-formed start of these bytes whatever nesting is allowed, and reading the item
    gives exactly its bytes, the slice it passed over. -/
theorem Cursor.skip_iff_wellFormed (c : Cursor) (hlen : c.buffer.length < UInt64.size)
    (depth : Nat) :
    ((c.run (Scan.skip depth)).1 = .ok () ↔ ∃ u, u <+: c.rest ∧ WellFormed depth u) ∧
    ∀ u (h : u <+: c.rest), WellFormed depth u →
      c.run (Scan.skip depth) = (.ok (), c.behind u h) ∧
      c.run (Scan.item depth) = (.ok u, c.behind u h) ∧
      c.slice c.position (c.behind u h).position = u ∧
      ∀ levels x, x <+: c.rest → WellFormed levels x → x = u := by
  have size : ∀ {x : Bytes}, x <+: c.rest → x.length < UInt64.size := by
    intro x hx
    have hle := hx.length_le
    rw [rest, List.length_drop] at hle
    omega
  refine ⟨⟨fun hok => ?_, ?_⟩, fun u h hu => ?_⟩
  · have hread : Scan.skip depth c.rest = (.ok (), (Scan.skip depth c.rest).2) := Prod.ext hok rfl
    obtain ⟨u, hu, _, hitem⟩ := Scan.skip_yields depth _ _ _ hread
    exact ⟨u, ⟨_, hu.symm⟩, .of_item hitem⟩
  · rintro ⟨u, h, hu⟩
    rw [run_reads (Scan.skip_reads (hu.item (size h))) h]
  · have hitem := hu.item (size h)
    refine ⟨run_reads (Scan.skip_reads hitem) h, run_reads (Scan.item_reads hitem) h,
      slice_behind h, fun levels x hx hwell => ?_⟩
    have hother := hwell.item (size hx)
    obtain ⟨tail, htail⟩ := h
    obtain ⟨other, htail'⟩ := hx
    exact hother.isItem.eq_of_append hitem.isItem (htail'.trans htail.symm)

/-- A map that a break closes, of one entry, whose value is an array that a break closes: it nests
    one level, so it is passed over with that level and not without. -/
theorem Cursor.skip_open_map :
    let c : Cursor := ⟨[0x07, 0xbf, 0x01, 0x9f, 0xff, 0xff, 0x00], 1, by decide⟩
    let u : Bytes := [0xbf, 0x01, 0x9f, 0xff, 0xff]
    c.buffer.length < UInt64.size ∧ WellFormed 1 u ∧
      (∃ c' : Cursor, c.run (Scan.item 1) = (.ok u, c') ∧ c'.position = 6) ∧
      ¬ ∃ x, x <+: c.rest ∧ WellFormed 0 x := by
  intro c u
  have hlen : c.buffer.length < UInt64.size := by decide
  have hinner : WellFormed 0 ([0x9f] ++ ([] ++ [breakByte])) :=
    .opened (w := 1) (k := 0) (.opened rfl rfl) rfl rfl .nil
  have hentry : Elements 1 (1 * 2) ([0x01] ++ ([0x9f, breakByte] ++ [])) :=
    .cons (.plain (.short (by decide)) nofun (.inl rfl)) (.cons hinner .nil)
  have hwell : WellFormed 1 u := .opened (.opened (i := 0xbf) rfl rfl) rfl rfl hentry
  have hfront : u <+: c.rest := ⟨[0x00], rfl⟩
  refine ⟨hlen, hwell, ?_, fun hflat => ?_⟩
  · exact ⟨_, ((c.skip_iff_wellFormed hlen 1).2 u hfront hwell).2.1, rfl⟩
  · exact absurd ((c.skip_iff_wellFormed hlen 0).1.mpr hflat) (by decide)

end CborSchema
