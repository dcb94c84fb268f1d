import CborSchema.Decode.Map
import CborSchema.Proofs.Guarded.Arrays

/-!
# Guarded maps

Maps, read at a position of a buffer. The values of the fields go into slots that are laid out
before any entry is read; a field that holds a literal has none.

* `FieldRow`, `fieldRows` -- the fields with their places and slots;
* `Filling` -- which fields were seen, and what their slots hold;
* `Guarded.readKeyed` -- the slots of a keyed map, which faults at a value without a slot;
* `Guarded.readMap` -- a map, which faults if the layout is not one of a map;
* `Filling.Holds` -- a filling holds what was found; `Holds.literal`, `Holds.value` -- **one more
  entry keeps it so**, as the keys of the fields differ;
* `Mirrors.readMap` -- a map of a shape that passed its checks has a layout, and its values have
  slots.
-/

namespace CborSchema

/-! ## 1. Fields and slots -/

/-- A field with its place among the fields and its slot, if it has one. -/
structure FieldRow where
  field : Field
  place : Nat
  slot : Option Nat

/-- The rows of fields, from a place and a slot on. -/
def fieldRowsFrom : Nat → Nat → List Field → List FieldRow
  | _, _, [] => []
  | place, slot, f :: fs =>
    if f.isLiteral then ⟨f, place, none⟩ :: fieldRowsFrom (place + 1) slot fs
    else ⟨f, place, some slot⟩ :: fieldRowsFrom (place + 1) (slot + 1) fs

/-- The rows of fields. -/
def fieldRows (fields : List Field) : List FieldRow := fieldRowsFrom 0 0 fields

/-- What was read: for each field whether it was seen, and what each slot holds. -/
structure Filling where
  seen : List Bool
  slots : List (Option Value)

namespace Filling

/-- Nothing was read. -/
def empty (fields : List Field) : Filling :=
  ⟨fields.map fun _ => false, (fields.filter fun f => !f.isLiteral).map fun _ => none⟩

/-- The field at a place was seen. -/
def see (t : Filling) (place : Nat) : Filling := { t with seen := t.seen.set place true }

/-- The value of a slot. -/
def fill (t : Filling) (slot : Nat) (v : Value) : Filling :=
  { t with slots := t.slots.set slot (some v) }

/-- Whether the field at a place was seen. -/
def sees (t : Filling) (place : Nat) : Bool := t.seen.getD place false

end Filling

/-- The first field that must be there and was not seen is refused. -/
def checkSeen (name : String) : List (Field × Bool) → Except DecodeError Unit
  | [] => .ok ()
  | (f, present) :: rows =>
    if f.presence ≠ .optional && !present then .error (.missingField name f.key)
    else checkSeen name rows

namespace Guarded

/-! ## 2. Entries -/

/-- One entry after those that were read; `seen` are the bytes of their keys, last first. -/
def readEntry (r : GuardedReading) (name : String) (key value : TypeExpr)
    (seen : List (Bytes × Value × Value)) : GuardedDecoder (List (Bytes × Value × Value)) := do
  let (k, span) ← spanned (r.part key)
  if seen.any fun e => e.1 == span then
    let digits := Hex.ofBytes span
    refuse (.duplicateKey name s!"h'{digits}'")
  else
    let v ← r.part value
    pure ((span, k, v) :: seen)

/-- Entries of one key and one value type, as many as are to come. -/
def readEntries (r : GuardedReading) (name : String) (key value : TypeExpr) (e : Pending) :
    GuardedDecoder (List (Value × Value)) := do
  let _ ← capacity e
  let rev ← fold (readEntry r name key value) e []
  pure (rev.reverse.map fun e => e.2)

/-! ## 3. Keyed fields -/

/-- The item in the place of a key. -/
def readKeyItem (r : GuardedReading) : GuardedDecoder KeyItem := do
  let h ← lookAhead (head "map key")
  match h.major, h.arg with
  | .unsigned, some n => do
    let _ ← head "map key"
    pure (if n ≤ maxSigned then .field (.int n.toInt64) else .other (toString n))
  | .negative, some n => do
    let _ ← head "map key"
    pure (if n ≤ maxSigned then .field (.int (-1 - n.toInt64)) else .other s!"-1-{n}")
  | .text, _ => do
    let h ← head "map key"
    let payload ← payload h r.options.maxStringLength "map key"
    let text ← ofExcept (readText payload "map key")
    pure (.field (.text text))
  | major, _ => do
    let levels ← levelsLeft r
    skip levels
    pure (.other s!"<{major.name}>")

/-- One entry after those that were read. -/
def readKeyedEntry (s : Shape) (r : GuardedReading) (fields : List Field) (t : Filling) :
    GuardedDecoder Filling := do
  let key ← readKeyItem r
  match (fieldRows fields).find? fun row => key == .field row.field.key with
  | none =>
    if s.extensible then
      let levels ← levelsLeft r
      skip levels
      pure t
    else refuse (.unknownKey s.name key.printed)
  | some row =>
    if t.sees row.place then refuse (.duplicateKey s.name key.printed)
    else match row.field.body, row.slot with
      | .literal literal, _ => do
        expectLiteral s.name r.options.maxStringLength row.field.key literal
        pure (t.see row.place)
      | .value type _, some slot => do
        let v ← r.part type
        pure ((t.see row.place).fill slot v)
      | .value _ _, none => fault .slot

/-- The slots of a keyed map. -/
def readKeyed (s : Shape) (r : GuardedReading) (fields : List Field) (e : Pending) :
    GuardedDecoder (List (Option Value)) := do
  let t ← fold (readKeyedEntry s r fields) e (.empty fields)
  ofExcept (checkSeen s.name (fields.zip t.seen))
  pure t.slots

/-- A map of a shape. -/
def readMap (s : Shape) (r : GuardedReading) : GuardedDecoder Parts := do
  let e ← openCollection s r .map
  match s.layout with
  | some (.entries key value) => do
    let entries ← readEntries r s.name key value e
    pure { name := s.name, content := .entries entries, style := e.style }
  | some (.fields fields) => do
    let slots ← readKeyed s r fields e
    pure { name := s.name, content := .fields slots, style := e.style }
  | _ => fault .layout

end Guarded

/-! ## 4. Rows -/

/-- What a row says about its field, of fields with some before them. -/
theorem fieldRowsFrom_mem {before fs : List Field} {row : FieldRow}
    (h : row ∈ fieldRowsFrom before.length (before.countP fun f => !f.isLiteral) fs) :
    (before ++ fs)[row.place]? = some row.field ∧ (row.field.isLiteral = false → ∃ slot,
      row.slot = some slot ∧
        ((before ++ fs).filter fun f => !f.isLiteral)[slot]? = some row.field) := by
  induction fs generalizing before with
  | nil => cases h
  | cons f fs ih =>
    have hplace : (before ++ f :: fs)[before.length]? = some f := by simp
    have hnext : before ++ f :: fs = (before ++ [f]) ++ fs := by simp
    rw [fieldRowsFrom] at h
    split at h
    · rename_i hf
      rcases List.mem_cons.mp h with rfl | h
      · exact ⟨hplace, fun hf' => absurd (hf.symm.trans hf') (by decide)⟩
      · rw [hnext]
        refine ih ?_
        simpa [hf] using h
    · rename_i hf
      rcases List.mem_cons.mp h with rfl | h
      · refine ⟨hplace, fun _ => ⟨_, rfl, ?_⟩⟩
        rw [List.filter_append, List.countP_eq_length_filter]
        simp [hf]
      · rw [hnext]
        refine ih ?_
        simpa [hf] using h

theorem fieldRows_mem {fields : List Field} {row : FieldRow} (h : row ∈ fieldRows fields) :
    fields[row.place]? = some row.field ∧ (row.field.isLiteral = false → ∃ slot,
      row.slot = some slot ∧ (fields.filter fun f => !f.isLiteral)[slot]? = some row.field) :=
  @fieldRowsFrom_mem [] fields row h

theorem fieldRowsFrom_fields (place slot : Nat) (fields : List Field) :
    (fieldRowsFrom place slot fields).map FieldRow.field = fields := by
  induction fields generalizing place slot with
  | nil => rfl
  | cons f fs ih =>
    rw [fieldRowsFrom]
    split
    · rw [List.map_cons, ih]
    · rw [List.map_cons, ih]

/-- To look for a row is to look for its field. -/
theorem fieldRows_find (fields : List Field) (p : Field → Bool) :
    fields.find? p = ((fieldRows fields).find? fun row => p row.field).map FieldRow.field := by
  conv_lhs => rw [← fieldRowsFrom_fields 0 0 fields]
  exact List.find?_map

/-! ## 5. Fillings -/

/-- What fields under different keys are mapped to changes at one place only, where it changes for
    one key. -/
theorem set_map_of_key {α : Type} {fields : List Field} (hn : (fields.map Field.key).Nodup)
    {i : Nat} {f : Field} (hf : fields[i]? = some f) {a b : Field → α}
    (h : ∀ f' ∈ fields, f'.key ≠ f.key → a f' = b f') :
    (fields.map a).set i (b f) = fields.map b := by
  obtain ⟨hi, _⟩ := List.getElem?_eq_some_iff.mp hf
  refine List.ext_getElem? fun j => ?_
  by_cases hj : i = j
  · subst hj
    rw [List.getElem?_set_self (by rwa [List.length_map]), List.getElem?_map, hf]
    rfl
  · rw [List.getElem?_set_ne hj, List.getElem?_map, List.getElem?_map]
    cases hf' : fields[j]? with
    | none => rfl
    | some f' =>
      have hkey : f'.key ≠ f.key := by
        intro hkey
        refine hj ((List.getElem?_inj (by rwa [List.length_map]) hn).mp ?_)
        rw [List.getElem?_map, List.getElem?_map, hf, hf', Option.map_some, Option.map_some, hkey]
      exact congrArg some (h f' (List.mem_of_getElem? hf') hkey)

namespace Filling

/-- A filling holds what was found. -/
structure Holds (fields : List Field) (t : Filling) (found : Found) : Prop where
  seen : t.seen = fields.map fun f => found.any fun e => e.1 == f.key
  slots : t.slots = slotsOf fields found

variable {fields : List Field} {t : Filling} {found : Found} {row : FieldRow}

theorem lookup_of_ne {k k' : FieldKey} (hk : k' ≠ k) (x : Option Value) :
    ((k, x) :: found).lookup k' = found.lookup k' := by
  rw [List.lookup_cons, beq_eq_false_iff_ne.mpr hk]

theorem Holds.empty (fields : List Field) : Holds fields (.empty fields) [] := ⟨rfl, rfl⟩

theorem Holds.sees (h : Holds fields t found) (hrow : row ∈ fieldRows fields) :
    t.sees row.place = found.any fun e => e.1 == row.field.key := by
  rw [Filling.sees, h.seen, List.getD_eq_getElem?_getD, List.getElem?_map,
    (fieldRows_mem hrow).1]
  rfl

theorem Holds.see (h : Holds fields t found) (hn : (fields.map Field.key).Nodup)
    (hrow : row ∈ fieldRows fields) (x : Option Value) :
    (t.see row.place).seen =
      fields.map fun f => ((row.field.key, x) :: found).any fun e => e.1 == f.key := by
  have hseen := set_map_of_key hn (fieldRows_mem hrow).1
    (a := fun f => found.any fun e => e.1 == f.key)
    (b := fun f => ((row.field.key, x) :: found).any fun e => e.1 == f.key) fun f' _ hkey => by
      simp [hkey.symm]
  rw [← hseen, Filling.see, h.seen]
  simp

/-- **The literal of a field was read.** -/
theorem Holds.literal (h : Holds fields t found) (hn : (fields.map Field.key).Nodup)
    (hrow : row ∈ fieldRows fields) (hf : row.field.isLiteral = true) :
    Holds fields (t.see row.place) ((row.field.key, none) :: found) := by
  refine ⟨h.see hn hrow none, h.slots.trans (List.map_congr_left fun f hmem => ?_)⟩
  obtain ⟨hmem, hvalue⟩ := List.mem_filter.mp hmem
  have hkey : f.key ≠ row.field.key := by
    intro hkey
    obtain rfl := List.inj_on_of_nodup_map hn hmem
      (List.mem_of_getElem? (fieldRows_mem hrow).1) hkey
    simp [hf] at hvalue
  rw [lookup_of_ne hkey]

/-- **The value of a field was read into its slot.** -/
theorem Holds.value (h : Holds fields t found) (hn : (fields.map Field.key).Nodup)
    (hrow : row ∈ fieldRows fields) {slot : Nat}
    (hslot : (fields.filter fun f => !f.isLiteral)[slot]? = some row.field) (v : Value) :
    Holds fields ((t.see row.place).fill slot v) ((row.field.key, some v) :: found) := by
  refine ⟨h.see hn hrow (some v), ?_⟩
  have hkeys : ((fields.filter fun f => !f.isLiteral).map Field.key).Nodup :=
    hn.sublist (List.filter_sublist.map _)
  have hslots := set_map_of_key hkeys hslot (a := fun f => (found.lookup f.key).join)
    (b := fun f => (((row.field.key, some v) :: found).lookup f.key).join) fun f' _ hkey => by
      rw [lookup_of_ne hkey]
  rw [List.lookup_cons_self] at hslots
  rw [slotsOf, ← hslots]
  exact congrArg (List.set · slot (some v)) h.slots

theorem checkSeen_map (name : String) (found : Found) (fields : List Field) :
    checkSeen name (fields.zip (fields.map fun f => found.any fun e => e.1 == f.key)) =
      checkPresent name found fields := by
  induction fields with
  | nil => rfl
  | cons f fs ih =>
    rw [List.map_cons, List.zip_cons_cons, checkSeen, checkPresent, ih]

end Filling

/-! ## 6. Maps -/

namespace Mirrors

variable {depth : Nat} {g : GuardedReading} {r : Reading}

theorem readEntries (hr : Mirrors depth g r) (name : String) (key value : TypeExpr) (e : Pending) :
    Follows depth Eq (Guarded.readEntries g name key value e)
      (CborSchema.readEntries r name key value e) := by
  refine Follows.capacity_bind e ?_
  refine (Follows.fold (R := Eq) (fun seen _ heq => ?_) e rfl).andThen fun rev => Follows.pure rfl
  subst heq
  refine (hr.part key).spanned.andThen fun p => ?_
  obtain ⟨k, span⟩ := p
  dsimp only
  split
  · exact Follows.refuse _
  · refine (hr.part value).andThen fun v => ?_
    exact Follows.pure rfl

theorem readKeyItem (hr : Mirrors depth g r) :
    Follows depth Eq (Guarded.readKeyItem g) (CborSchema.readKeyItem r) := by
  have hother : ∀ major : Major, Follows depth Eq
      (Guarded.levelsLeft g >>= fun levels => Guarded.skip levels >>= fun _ =>
        pure (KeyItem.other s!"<{major.name}>"))
      ((liftM (Scan.skip r.depth) : Decoder Unit) >>= fun _ =>
        pure (KeyItem.other s!"<{major.name}>")) := fun major =>
    hr.levelsLeft_bind ((Tracks.skip r.depth).follows.andThen fun _ => Follows.pure rfl)
  refine (Follows.peekHead "map key").bind fun h _ heq => ?_
  obtain ⟨rfl, _⟩ := heq
  rcases h with ⟨major, info, arg⟩
  cases major with
  | unsigned =>
    cases arg with
    | some n => exact (Follows.head _).bind fun _ _ _ => Follows.pure rfl
    | none => exact hother .unsigned
  | negative =>
    cases arg with
    | some n => exact (Follows.head _).bind fun _ _ _ => Follows.pure rfl
    | none => exact hother .negative
  | text =>
    refine (Follows.head "map key").bind fun h _ heq => ?_
    obtain ⟨rfl, _⟩ := heq
    rw [hr.options]
    refine (Follows.payload h _ "map key").andThen fun payload => ?_
    refine (Follows.ofExcept _).andThen fun text => ?_
    exact Follows.pure rfl
  | bytes => exact hother .bytes
  | array => exact hother .array
  | map => exact hother .map
  | tag => exact hother .tag
  | simple => exact hother .simple

/-- **One entry of a keyed map.** A field that stands for a value has a slot. -/
theorem readKeyedEntry (hr : Mirrors depth g r) (s : Shape) {fields : List Field}
    (hn : (fields.map Field.key).Nodup) {t : Filling} {found : Found} (h : t.Holds fields found) :
    Follows depth (Filling.Holds fields) (Guarded.readKeyedEntry s g fields t)
      (s.readKeyedEntry r fields found) := by
  refine hr.readKeyItem.andThen fun key => ?_
  rw [fieldRows_find]
  cases hfind : (fieldRows fields).find? fun row => key == .field row.field.key with
  | none =>
    rw [Option.map_none]
    dsimp only
    split
    · exact hr.levelsLeft_bind ((Tracks.skip r.depth).follows.andThen fun _ => Follows.pure h)
    · exact Follows.refuse _
  | some row =>
    have hrow : row ∈ fieldRows fields := List.mem_of_find?_eq_some hfind
    rw [Option.map_some]
    dsimp only
    rw [h.sees hrow]
    split
    · exact Follows.refuse _
    · cases hbody : row.field.body with
      | literal literal =>
        have hf : row.field.isLiteral = true := by rw [Field.isLiteral, hbody]
        dsimp only
        rw [hr.options]
        exact (Follows.expectLiteral s.name _ row.field.key literal).andThen fun _ =>
          Follows.pure (h.literal hn hrow hf)
      | value type presence =>
        have hf : row.field.isLiteral = false := by rw [Field.isLiteral, hbody]
        obtain ⟨slot, hslot, hfield⟩ := (fieldRows_mem hrow).2 hf
        rw [hslot]
        refine (hr.part type).andThen fun v => ?_
        exact Follows.pure (h.value hn hrow hfield v)

theorem readKeyed (hr : Mirrors depth g r) (s : Shape) {fields : List Field}
    (hn : (fields.map Field.key).Nodup) (e : Pending) :
    Follows depth Eq (Guarded.readKeyed s g fields e) (s.readKeyed r fields e) := by
  refine (Follows.fold (fun t found h => hr.readKeyedEntry s hn h) e (.empty fields)).bind
    fun t found h => ?_
  rw [h.seen, Filling.checkSeen_map]
  exact (Follows.ofExcept _).andThen fun _ => Follows.pure h.slots

/-- **A map of a shape with a layout for it.** -/
theorem readMap (hr : Mirrors depth g r) {s : Shape} (hs : s.HasMap) :
    Follows depth Eq (Guarded.readMap s g) (s.readMap r) := by
  refine (hr.openCollection s .map).andThen fun e => ?_
  rcases hs with ⟨key, value, hl⟩ | ⟨fields, hl, hn, _⟩
  · rw [hl]
    refine (hr.readEntries s.name key value e).andThen fun entries => ?_
    exact Follows.pure rfl
  · rw [hl]
    refine (hr.readKeyed s hn e).andThen fun slots => ?_
    exact Follows.pure rfl

end Mirrors

end CborSchema
