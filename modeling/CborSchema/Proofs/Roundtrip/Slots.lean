import CborSchema.Proofs.Decode.EntrySets
import CborSchema.Proofs.Decode.Gathers
import CborSchema.Proofs.Guarded.Values

/-!
# Slots and fields

Fields that hold values have slots, fields that are literals have none, and in between the slots are
known by their numbers only. An array pushes a slot for each field that it passes, a map fills slots
whose numbers were given out before, and a writer goes through slots and fields together. The
numbers mean the same in all three.

* `fieldRowsFrom_slots`, `alignFields_free` -- slots are given out, and taken, in the order of the
  fields that are no literals;
* `Field.SlotOver`, `Shape.TupleSlots` -- the slots of fields in order, each read off the element in
  the place of its field; `Laid.tupleSlots`: an array that is read has such slots;
* `MayBeEmpty` -- a slot is only empty where its field may be absent;
* `Shape.SlotsRead`, `Shape.SlotsWritten` -- the slots of an item that is read, and of one that is
  written;
* `Catalog.AlignsSlots`, `Catalog.slots_stay_aligned` -- **slots and fields stay aligned on both
  sides.**
-/

namespace CborSchema

open Decoder

variable {s : Shape} {r : Reading} {w : Writing} {fields : List Field} {slots : List (Option Value)}

/-! ## 1. Slots by number -/

/-- **The slots are numbered in the order of the fields that are no literals**; by induction on the
    fields, with the numbers that were given out before. -/
theorem fieldRowsFrom_slots (place slot : Nat) (fields : List Field) :
    ((fieldRowsFrom place slot fields).filterMap fun row => row.slot.map fun n => (row.field, n)) =
      (fields.filter fun f => !f.isLiteral).zipIdx slot := by
  induction fields generalizing place slot with
  | nil => rfl
  | cons f fs ih =>
    rw [fieldRowsFrom]
    cases hf : f.isLiteral with
    | true => simp [hf, ih]
    | false => simp [hf, ih, List.zipIdx_cons]

/-- **The slots are taken in the order of the fields that are no literals.** -/
theorem alignFields_free (hn : slots.length = fields.countP fun f => !f.isLiteral) :
    (alignFields fields slots).filter (fun e => !e.1.isLiteral) =
      (fields.filter fun f => !f.isLiteral).zip slots := by
  refine List.zip_of_prod ?_ (freeSlots_alignFields hn)
  conv_rhs => rw [← alignFields_fields fields slots, List.filter_map]
  rfl

/-- **Slots are refused exactly if they are not as many as the shape has.** -/
theorem alignSlots_eq_error {e : EncodeError} : s.alignSlots fields slots = .error e ↔
    slots.length ≠ s.arity ∧ e = .fieldCount s.name s.arity slots.length := by
  rw [Shape.alignSlots]
  split
  · rename_i hn
    simp [hn]
  · rename_i hn
    rw [Except.error.injEq]
    exact ⟨fun h => ⟨hn, h.symm⟩, fun h => h.2.symm⟩

/-! ## 2. Slots of elements -/

/-- The slot of a field that is no literal, over the element in its place, if there is one. -/
inductive Field.SlotOver (f : Field) (r : Reading) : Option Bytes → Option Value → Prop where
  | element {type : TypeExpr} {presence : Presence} {slot : Option Value} {x : Bytes}
      (hb : f.body = .value type presence) (hx : SlotAt r type presence slot x) :
      SlotOver f r (some x) slot
  | missing (hp : f.presence = .optional) : SlotOver f r none none

/-- Elements over fields from a place on: the literals stand in their places, and the slots are read
    off the elements in the places of the other fields. -/
structure Shape.TupleSlots (s : Shape) (r : Reading) (place : Nat) (fields : List Field)
    (elements : List Bytes) (slots : List (Option Value)) : Prop where
  literals : ∀ p ∈ fields.zipIdx place, ∀ l, p.1.body = .literal l →
    ∃ x, elements[p.2]? = some x ∧ LiteralAt s.name r.options.maxStringLength l x
  slots : List.Forall₂ (fun p slot => p.1.SlotOver r elements[p.2]? slot)
    ((fields.zipIdx place).filter fun p => !p.1.isLiteral) slots

namespace Shape.TupleSlots

variable {place : Nat} {elements : List Bytes} {f : Field}

theorem nil : s.TupleSlots r place [] elements [] := ⟨by simp, .nil⟩

theorem literal {l : Literal} {x : Bytes} (hb : f.body = .literal l)
    (hx : elements[place]? = some x) (hl : LiteralAt s.name r.options.maxStringLength l x)
    (h : s.TupleSlots r (place + 1) fields elements slots) :
    s.TupleSlots r place (f :: fields) elements slots := by
  refine ⟨?_, ?_⟩
  · rw [List.zipIdx_cons]
    refine List.forall_mem_cons.mpr ⟨fun l' hb' => ?_, h.literals⟩
    obtain rfl := FieldBody.literal.inj (hb.symm.trans hb')
    exact ⟨x, hx, hl⟩
  · rw [List.zipIdx_cons, List.filter_cons_of_neg (by simp [Field.isLiteral, hb])]
    exact h.slots

theorem value {slot : Option Value} (hf : f.isLiteral = false)
    (hx : f.SlotOver r elements[place]? slot)
    (h : s.TupleSlots r (place + 1) fields elements slots) :
    s.TupleSlots r place (f :: fields) elements (slot :: slots) := by
  refine ⟨?_, ?_⟩
  · rw [List.zipIdx_cons]
    refine List.forall_mem_cons.mpr ⟨fun l hb => ?_, h.literals⟩
    rw [Field.isLiteral, hb] at hf
    cases hf
  · rw [List.zipIdx_cons, List.filter_cons_of_pos (by simp [hf])]
    exact .cons hx h.slots

end Shape.TupleSlots

/-- Past the last element all slots are empty. -/
theorem Shape.Laid.emptySlots {n : Nat} {inner : Bytes} (h : s.Laid r fields slots n inner)
    (hn : n = 0) {place : Nat} {elements : List Bytes} (hp : elements.length ≤ place) :
    s.TupleSlots r place fields elements slots := by
  induction h generalizing place with
  | past => exact .nil
  | literal => cases hn
  | value => cases hn
  | absent hf _ ih =>
    obtain ⟨type, hb⟩ := Field.body_of_optional hf
    refine .value (by rw [Field.isLiteral, hb]) ?_ (ih rfl (Nat.le_succ_of_le hp))
    rw [List.getElem?_eq_none hp]
    exact .missing hf

/-- **The slots of elements over fields are those of the elements in the places of the fields**; by
    induction on the fields, with the elements in front of them. -/
theorem Shape.Laid.tupleSlots {n : Nat} {inner : Bytes} (h : s.Laid r fields slots n inner) :
    ∃ xs : List Bytes, xs.length = n ∧ inner = xs.flatten ∧ (∀ x ∈ xs, IsItem x) ∧
      ∀ front, s.TupleSlots r front.length fields (front ++ xs) slots := by
  induction h with
  | past hx _ =>
    obtain ⟨xs, hn, hinner, hitems⟩ := hx.exists_list
    exact ⟨xs, hn, hinner, fun x hx => (hitems x hx).isItem, fun _ => .nil⟩
  | literal hf hl _ ih =>
    rename_i x _ _
    obtain ⟨xs, rfl, rfl, hitems, hxs⟩ := ih
    refine ⟨x :: xs, rfl, rfl, List.forall_mem_cons.mpr ⟨hl.isItem, hitems⟩,
      fun front => .literal hf (by simp) hl ?_⟩
    have hnext := hxs (front ++ [x])
    rwa [List.length_append, List.append_assoc] at hnext
  | value hf hx _ ih =>
    rename_i x _ _
    obtain ⟨xs, rfl, rfl, hitems, hxs⟩ := ih
    refine ⟨x :: xs, rfl, rfl, List.forall_mem_cons.mpr ⟨hx.isItem, hitems⟩,
      fun front => .value (by rw [Field.isLiteral, hf]) ?_ ?_⟩
    · simpa using Field.SlotOver.element hf hx
    · have hnext := hxs (front ++ [x])
      rwa [List.length_append, List.append_assoc] at hnext
  | absent hf hs _ =>
    refine ⟨[], rfl, rfl, List.forall_mem_nil _, fun front => ?_⟩
    rw [List.append_nil]
    exact (Shape.Laid.absent hf hs).emptySlots rfl (Nat.le_refl _)

/-! ## 3. Slots that are read -/

/-- A slot is only empty where its field may be absent. -/
def MayBeEmpty (fields : List Field) (slots : List (Option Value)) : Prop :=
  List.Forall₂ (fun f slot => slot = none → f.presence = .optional ∨ f.presence = .nullable)
    (fields.filter fun f => !f.isLiteral) slots

theorem Field.SlotOver.presence {f : Field} {x : Option Bytes} (h : f.SlotOver r x none) :
    f.presence = .optional ∨ f.presence = .nullable := by
  generalize hslot : (none : Option Value) = slot at h
  cases h with
  | element hb hx =>
    subst hslot
    cases hx with
    | null hp => exact .inr (by rw [Field.presence, hb, hp])
  | missing hp => exact .inl hp

/-- The fields that are no literals, with their places and without. -/
theorem zipIdx_filter_fst (place : Nat) (fields : List Field) :
    ((fields.zipIdx place).filter fun p => !p.1.isLiteral).map Prod.fst =
      fields.filter fun f => !f.isLiteral := by
  conv_rhs => rw [← List.zipIdx_map_fst place fields, List.filter_map]
  rfl

theorem Shape.TupleSlots.mayBeEmpty {place : Nat} {elements : List Bytes}
    (h : s.TupleSlots r place fields elements slots) : MayBeEmpty fields slots := by
  rw [MayBeEmpty, ← zipIdx_filter_fst place, List.forall₂_map_left_iff]
  refine h.slots.imp fun p slot hslot hnone => ?_
  subst hnone
  exact hslot.presence

theorem Shape.EntrySet.mayBeEmpty {entries : List (Bytes × Bytes)}
    (h : s.EntrySet r fields entries slots) : MayBeEmpty fields slots := by
  have hslots := (List.forall₂_and_left _ _).mpr ⟨fun _ => id, h.slots⟩
  refine hslots.imp fun f slot ⟨hf, hslot⟩ hnone => .inl ?_
  subst hnone
  cases hslot with
  | absent hno =>
    by_contra hp
    obtain ⟨w, hw, hk⟩ := h.present f (List.mem_filter.mp hf).1 hp
    exact hno w hw hk

theorem MayBeEmpty.length (hl : s.layout = some (.fields fields)) (h : MayBeEmpty fields slots) :
    slots.length = s.arity := by
  rw [Shape.arity_of_layout hl, List.countP_eq_length_filter, h.length_eq]

/-- **Fields that are read in order leave the slots of the elements that were read.** -/
theorem readPositional_slots (hr : r.Sound) {e : Pending} {bytes rest : Bytes}
    (h : (s.readPositional r fields e bytes).result = .ok (slots, rest)) :
    ∃ elements used, bytes = used ++ rest ∧ e.Body elements.length elements.flatten used ∧
      s.TupleSlots r 0 fields elements slots := by
  obtain ⟨used, rfl, -, e', k, v, inner, w, rfl, hp, hb, hx, hk⟩ :=
    readPositional_yields hr s fields e bytes slots rest h
  obtain ⟨n, inner, hlaid, hbody⟩ := hp.laid hb hx hk
  obtain ⟨elements, rfl, rfl, -, hslots⟩ := hlaid.tupleSlots
  exact ⟨elements, _, rfl, hbody, hslots []⟩

/-- **Entries that are read under keys leave the slots of the entries that were read.** -/
theorem readKeyed_slots (hr : r.Sound) (hn : (fields.map Field.key).Nodup) {e : Pending}
    {bytes rest : Bytes} (h : (s.readKeyed r fields e bytes).result = .ok (slots, rest)) :
    ∃ entries used, bytes = used ++ rest ∧ e.Body entries.length (wireBytes entries) used ∧
      s.EntrySet r fields entries slots := by
  obtain ⟨used, rfl, -, found, k, inner, rfl, hb, hs, hc⟩ :=
    readKeyed_yields hr s fields e bytes slots rest h
  obtain ⟨entries, rfl, rfl, hset⟩ := exists_entrySet hn hs hc
  exact ⟨entries, used, rfl, hb, hset⟩

/-- The slots of an item that is read: those of the elements of its array, or of the entries of its
    map. -/
inductive Shape.SlotsRead (s : Shape) (r : Reading) (fields : List Field)
    (slots : List (Option Value)) : Bytes → Prop where
  | tuple {before front body : Bytes} {e : Pending} {elements : List Bytes} (hk : s.kind ≠ .map)
      (ho : s.Opens r .array e front) (hb : e.Body elements.length elements.flatten body)
      (hs : s.TupleSlots r 0 fields elements slots) :
      SlotsRead s r fields slots (before ++ (front ++ body))
  | keyed {before front body : Bytes} {e : Pending} {entries : List (Bytes × Bytes)}
      (hk : s.kind = .map) (ho : s.Opens r .map e front)
      (hb : e.Body entries.length (wireBytes entries) body)
      (hs : s.EntrySet r fields entries slots) :
      SlotsRead s r fields slots (before ++ (front ++ body))

namespace Shape.SlotsRead

variable {u : Bytes}

theorem mayBeEmpty (h : s.SlotsRead r fields slots u) : MayBeEmpty fields slots := by
  cases h with
  | tuple _ _ _ hs => exact hs.mayBeEmpty
  | keyed _ _ _ hs => exact hs.mayBeEmpty

theorem behind (h : s.SlotsRead r fields slots u) (before : Bytes) :
    s.SlotsRead r fields slots (before ++ u) := by
  cases h with
  | tuple hk ho hb hs =>
    rw [← List.append_assoc]
    exact .tuple hk ho hb hs
  | keyed hk ho hb hs =>
    rw [← List.append_assoc]
    exact .keyed hk ho hb hs

end Shape.SlotsRead

theorem Shape.ArrayAt.slotsRead {parts : Parts} {u : Bytes} (h : s.ArrayAt r parts u)
    (hk : s.kind ≠ .map) (hl : s.layout = some (.fields fields)) :
    ∃ slots, parts.content = .fields slots ∧ s.SlotsRead r fields slots u := by
  obtain ⟨e, front, body, content, n, inner, rfl, ho, hb, hholds, rfl⟩ := Shape.arrayAt_iff.mp h
  cases hholds with
  | items hl' => cases hl.symm.trans hl'
  | fields hl' hlaid =>
    cases hl.symm.trans hl'
    obtain ⟨elements, rfl, rfl, -, hslots⟩ := hlaid.tupleSlots
    have hread : s.SlotsRead r fields _ ([] ++ (front ++ body)) := .tuple hk ho hb (hslots [])
    exact ⟨_, rfl, hread⟩

theorem Shape.MapAt.slotsRead {parts : Parts} {u : Bytes} (h : s.MapAt r parts u)
    (hk : s.kind = .map) (hl : s.layout = some (.fields fields))
    (hn : (fields.map Field.key).Nodup) :
    ∃ slots, parts.content = .fields slots ∧ s.SlotsRead r fields slots u := by
  obtain ⟨e, front, body, content, n, inner, rfl, ho, hb, hholds, rfl⟩ := Shape.mapAt_iff.mp h
  cases hholds with
  | entries hl' => cases hl.symm.trans hl'
  | fields hl' hs hc =>
    cases hl.symm.trans hl'
    obtain ⟨entries, rfl, rfl, hset⟩ := exists_entrySet hn hs hc
    have hread : s.SlotsRead r fields _ ([] ++ (front ++ body)) := .keyed hk ho hb hset
    exact ⟨_, rfl, hread⟩

/-- **An item of a shape with fields is read as slots**, be it a list, a map or a constructor. -/
theorem Shape.KindAt.slotsRead {t : TypeExpr} {parts : Parts} {u : Bytes} (h : s.KindAt r parts u)
    (hs : s.check t = .ok ()) (hl : s.layout = some (.fields fields)) :
    ∃ slots, parts.content = .fields slots ∧ s.SlotsRead r fields slots u := by
  cases h with
  | scalar hk _ => cases hl.symm.trans (check_scalar hs hk).1
  | list hk h => exact h.slotsRead (by rw [hk]; simp) hl
  | map hk h =>
    have hn := check_keys hs hk
    rw [fields_of_layout hl] at hn
    exact h.slotsRead hk hl hn
  | constructor hk h =>
    cases h with
    | mk hi _ ha =>
      obtain ⟨slots, hslots, hread⟩ := ha.slotsRead (by rw [hk]; simp) hl
      exact ⟨slots, hslots, hread.behind _⟩
  | union hk _ => cases hl.symm.trans (check_union_facets hs hk).1

/-! ## 4. Slots that are written -/

/-- The slots of an item that is written, each with its field: as the elements of an array up to the
    last one that is there or must be, or as the entries of a map. -/
inductive Shape.SlotsWritten (s : Shape) (w : Writing) (fields : List Field)
    (slots : List (Option Value)) : Bytes → Prop where
  | tuple {before inner : Bytes} {indefinite : Bool} {entries : List (Field × Option Value)}
      (hk : s.kind ≠ .map) (ha : s.alignSlots fields slots = .ok entries)
      (he : Row (ElementAs w) (writtenFields entries) inner) : SlotsWritten s w fields slots
        (before ++ collectionBytes .array indefinite (writtenFields entries).length inner)
  | keyed {before inner : Bytes} {indefinite : Bool} {entries : List (Field × Option Value)}
      (hk : s.kind = .map) (ha : s.alignSlots fields slots = .ok entries)
      (he : Row (KeyedAs w) entries inner) : SlotsWritten s w fields slots
        (before ++ collectionBytes .map indefinite (entries.countP isWritten) inner)

theorem Shape.SlotsWritten.length {u : Bytes} (h : s.SlotsWritten w fields slots u) :
    slots.length = s.arity := by
  cases h with
  | tuple _ ha _ => exact (alignSlots_eq_ok.mp ha).1
  | keyed _ ha _ => exact (alignSlots_eq_ok.mp ha).1

theorem Shape.ArrayAs.slotsWritten {p : Pieces} {u : Bytes} (h : s.ArrayAs w p u)
    (hk : s.kind ≠ .map) (hl : s.layout = some (.fields fields)) (hc : p.content = .fields slots)
    (before : Bytes) : s.SlotsWritten w fields slots (before ++ u) := by
  cases h with
  | items hl' => cases hl.symm.trans hl'
  | fields hl' hc' hn he =>
    cases hl.symm.trans hl'
    cases hc.symm.trans hc'
    exact .tuple hk (alignSlots_eq_ok.mpr ⟨hn, rfl⟩) he

/-- **What a value pushes is written as slots**, be it a list, a map or a constructor. -/
theorem Shape.KindAs.slotsWritten {p : Pieces} {u : Bytes} (h : s.KindAs w p u)
    (hl : s.layout = some (.fields fields)) (hc : p.content = .fields slots) (before : Bytes) :
    s.SlotsWritten w fields slots (before ++ u) := by
  cases h with
  | scalar _ hc' _ => cases hc.symm.trans hc'
  | list hk h => exact h.slotsWritten (by rw [hk]; simp) hl hc before
  | map hk h =>
    cases h with
    | entries hl' => cases hl.symm.trans hl'
    | fields hl' hc' hn _ he =>
      cases hl.symm.trans hl'
      cases hc.symm.trans hc'
      exact .keyed hk (alignSlots_eq_ok.mpr ⟨hn, rfl⟩) he
  | constructor hk h =>
    cases h with
    | mk _ hu =>
      rw [← List.append_assoc]
      exact hu.slotsWritten (by rw [hk]; simp) hl hc _
  | union _ h =>
    cases h with
    | mk hc' _ _ => cases hc.symm.trans hc'

/-! ## 5. Both sides -/

variable {c : Catalog} {o : DecodeOptions} {depth : Nat} {t : TypeExpr} {v : Value}

/-- What a type takes of an item are its slots, the first ones in order. -/
theorem Catalog.takes_slots (hs : c.resolve t = .ok s) (hl : s.layout = some (.fields fields))
    {bytes rest : Bytes} (h : (c.codec.read o (depth + 1) t bytes).result = .ok (v, rest)) :
    ∃ used slots taken, bytes = used ++ rest ∧
      s.SlotsRead (c.codec.reading o depth) fields slots used ∧
      v.content = .fields taken ∧ taken <+: slots := by
  obtain ⟨used, rfl, -, hat⟩ := Codec.read_yields (c.codec.sound o depth) t bytes v rest h
  obtain ⟨parts, hkept, hbuilt⟩ := hat.keptAt hs
  obtain ⟨tag, inner, parts', rfl, hkind, hcontent, -, -⟩ := hkept.behind_tag
  obtain ⟨slots, hslots, hread⟩ := hkind.slotsRead (resolve_check hs).1 hl
  obtain ⟨taken, hv, htakes⟩ :=
    (construct_slots_iff hs hl (hcontent.trans hslots)).mp ⟨v, hbuilt, rfl⟩
  obtain ⟨-, -, -, -, -, -, hprefix⟩ := htakes
  exact ⟨tag ++ inner, slots, taken, rfl, hread.behind tag, hv, hprefix⟩

/-- What a type pushes is written as slots, unless the bytes that the value was read from are
    replayed. -/
theorem Catalog.pushes_slots (hs : c.resolve t = .ok s) (hl : s.layout = some (.fields fields))
    {o : EncodeOptions} {b : Bytes} (h : (c.codec.write o (depth + 1) t v).result = .ok b)
    (hv : v.content = .fields slots) : (s.preserveRaw = true ∧ v.notes.raw = some b) ∨
      s.SlotsWritten (c.codec.writing o depth) fields slots b := by
  cases Codec.write_eq_ok.mp h with
  | replayed hs' hp _ hraw =>
    cases Except.ok.inj (hs.symm.trans hs')
    exact .inl ⟨hp, hraw⟩
  | taken hs' _ hp hk =>
    cases Except.ok.inj (hs.symm.trans hs')
    have hcontent := pieces_content hp fun x hx => by
      rw [hv] at hx
      cases hx
    exact .inr (hk.slotsWritten hl (hcontent.trans hv) _)

/-- Slots and fields of a shape are aligned: where slots are read, where they are paired with
    fields, and between the two sides. -/
structure Catalog.AlignsSlots (c : Catalog) (o : DecodeOptions) (depth : Nat) (t : TypeExpr)
    (s : Shape) (fields : List Field) : Prop where
  /-- Fields that are read in order leave one slot for each that is no literal, which is read off
      the element in the place of the field. -/
  positional : ∀ e bytes slots rest,
    (s.readPositional (c.codec.reading o depth) fields e bytes).result = .ok (slots, rest) →
      slots.length = s.arity ∧ MayBeEmpty fields slots ∧ ∃ elements used, bytes = used ++ rest ∧
        e.Body elements.length elements.flatten used ∧
        s.TupleSlots (c.codec.reading o depth) 0 fields elements slots
  /-- Entries that are read under keys, in whatever order, leave one slot for each field that is no
      literal, which is read off the entry under the key of the field. -/
  keyed : s.kind = .map → ∀ e bytes slots rest,
    (s.readKeyed (c.codec.reading o depth) fields e bytes).result = .ok (slots, rest) →
      slots.length = s.arity ∧ MayBeEmpty fields slots ∧ ∃ entries used, bytes = used ++ rest ∧
        e.Body entries.length (wireBytes entries) used ∧
        s.EntrySet (c.codec.reading o depth) fields entries slots
  /-- Slots are numbered in the order of the fields that are no literals; literals have no
      number. -/
  numbered : ((fieldRows fields).filterMap fun row => row.slot.map fun n => (row.field, n)) =
    (fields.filter fun f => !f.isLiteral).zipIdx
  /-- A reader of entries that fills slots by these numbers reads the same. -/
  filled : s.kind = .map → ∀ level, level + depth = o.maxDepth → ∀ e,
    Follows level Eq (Guarded.readKeyed s ⟨o, Guarded.value c o (depth + 1)⟩ fields e)
      (s.readKeyed (c.codec.reading o depth) fields e)
  /-- Slots are refused exactly if they are too many or too few. -/
  refused : ∀ slots e, s.alignSlots fields slots = .error e ↔
    slots.length ≠ s.arity ∧ e = .fieldCount s.name s.arity slots.length
  /-- Otherwise each goes to the field of its number, and a literal gets none. -/
  paired : ∀ slots entries, s.alignSlots fields slots = .ok entries →
    entries.map Prod.fst = fields ∧
      entries.filter (fun e => !e.1.isLiteral) = (fields.filter fun f => !f.isLiteral).zip slots ∧
      ∀ e ∈ entries, e.1.isLiteral = true → e.2 = none
  /-- A type takes the slots of an item in order. -/
  taken : ∀ bytes v rest, (c.codec.read o (depth + 1) t bytes).result = .ok (v, rest) →
    ∃ used slots taken, bytes = used ++ rest ∧
      s.SlotsRead (c.codec.reading o depth) fields slots used ∧
      v.content = .fields taken ∧ taken <+: slots
  /-- It pushes slots in order, unless the bytes that a value was read from are replayed. -/
  pushed : ∀ o' depth' v slots b, v.content = .fields slots →
    (c.codec.write o' (depth' + 1) t v).result = .ok b →
    (s.preserveRaw = true ∧ v.notes.raw = some b) ∨
      s.SlotsWritten (c.codec.writing o' depth') fields slots b
  /-- What is taken of an item and pushed again are all its slots, in the same order. -/
  again : ∀ bytes v rest, (c.codec.read o (depth + 1) t bytes).result = .ok (v, rest) →
    ∀ o' depth' v' b, v'.content = v.content → (c.codec.write o' (depth' + 1) t v').result = .ok b →
      (s.preserveRaw = true ∧ v'.notes.raw = some b) ∨ ∃ used slots, bytes = used ++ rest ∧
        v.content = .fields slots ∧ s.SlotsRead (c.codec.reading o depth) fields slots used ∧
        s.SlotsWritten (c.codec.writing o' depth') fields slots b

/-- **Slots and fields stay aligned on both sides.** Let a type resolve to a shape with fields, with
    literals anywhere between the others. What is read, in order or under keys, are as many slots as
    the shape has; each holds what was read for the field of its number, and is empty only where the
    field may be absent. A writer refuses another number of slots, and gives each slot to the field
    of its number and none to a literal. So the slots that are taken of a list, a constructor or a
    map are those that are pushed, in the same order. -/
theorem Catalog.slots_stay_aligned (c : Catalog) (o : DecodeOptions) (depth : Nat) {t : TypeExpr}
    {s : Shape} {fields : List Field} (hs : c.resolve t = .ok s)
    (hl : s.layout = some (.fields fields)) : c.AlignsSlots o depth t s fields := by
  have hsound := c.codec.sound o depth
  have hkeys (hk : s.kind = .map) : (fields.map Field.key).Nodup := by
    have hn := check_keys (resolve_check hs).1 hk
    rwa [Shape.fields_of_layout hl] at hn
  refine ⟨fun e bytes slots rest h => ?_, fun hk e bytes slots rest h => ?_,
    fieldRowsFrom_slots 0 0 fields,
    fun hk level hlevel e => ?_, fun slots e => alignSlots_eq_error, fun slots entries h => ?_,
    fun bytes v rest h => takes_slots hs hl h, fun o' depth' v slots b hv h =>
      pushes_slots hs hl h hv,
    fun bytes v rest h o' depth' v' b hv' h' => ?_⟩
  · obtain ⟨elements, used, hbytes, hbody, hslots⟩ := readPositional_slots hsound h
    have hempty := hslots.mayBeEmpty
    exact ⟨hempty.length hl, hempty, elements, used, hbytes, hbody, hslots⟩
  · obtain ⟨entries, used, hbytes, hbody, hset⟩ := readKeyed_slots hsound (hkeys hk) h
    have hempty := hset.mayBeEmpty
    exact ⟨hempty.length hl, hempty, entries, used, hbytes, hbody, hset⟩
  · have hr : Mirrors level ⟨o, Guarded.value c o (depth + 1)⟩ (c.codec.reading o depth) :=
      ⟨rfl, hlevel, fun t => c.value_follows o depth hlevel t⟩
    exact hr.readKeyed s (hkeys hk) e
  · obtain ⟨hn, rfl⟩ := alignSlots_eq_ok.mp h
    exact ⟨alignFields_fields fields slots, alignFields_free (hn.trans (Shape.arity_of_layout hl)),
      fun e he => alignFields_literal he⟩
  · obtain ⟨used, slots, taken, hbytes, hread, hv, hprefix⟩ := takes_slots hs hl h
    rcases pushes_slots hs hl h' (hv'.trans hv) with hraw | hwritten
    · exact .inl hraw
    · obtain rfl := hprefix.eq_of_length (hwritten.length.trans (hread.mayBeEmpty.length hl).symm)
      exact .inr ⟨used, taken, hbytes, hv, hread, hwritten⟩

/-- A list with a literal between two values and an optional one at the end, and a map with the same
    fields whose entries come in another order: the second slot is that of the third field, read and
    written. -/
theorem Catalog.a_literal_between_slots :
    let number (n : UInt64) : Option Value := some (.ofScalar .uint64 (.uint n))
    let fields (schema : Schema) : Schema :=
      (((schema.withValue (.int 0) .uint64 .required).withLiteral
      (.int 1) (.int 7)).withValue (.int 2) .uint64 .required).withValue (.int 3) .uint64 .optional
    let c : Catalog := {
      declared := fun name =>
        { schema := fields (if name = "list" then Schema.list else Schema.map) }
      printName := fun _ => "type" }
    let v (name : String) : Value := .node (.named name) (.fields [number 5, number 6, none]) {}
    (∃ s fields, c.resolve (.named "list") = .ok s ∧ s.layout = some (.fields fields) ∧
      c.AlignsSlots {} 255 (.named "list") s fields) ∧
    (∃ s fields, c.resolve (.named "map") = .ok s ∧ s.layout = some (.fields fields) ∧
      c.AlignsSlots {} 255 (.named "map") s fields) ∧
    (c.codec.read {} 256 (.named "list") [0x83, 0x05, 0x07, 0x06]).result = .ok (v "list", []) ∧
    (c.codec.read {} 256 (.named "map") [0xa3, 0x02, 0x06, 0x01, 0x07, 0x00, 0x05]).result =
      .ok (v "map", []) ∧
    (c.codec.write {} 256 (.named "list") (v "list")).result = .ok [0x83, 0x05, 0x07, 0x06] ∧
    (c.codec.write {} 256 (.named "map") (v "map")).result =
      .ok [0xa3, 0x00, 0x05, 0x01, 0x07, 0x02, 0x06] := by
  intro number fields c v
  refine ⟨⟨_, _, rfl, rfl, c.slots_stay_aligned {} 255 rfl rfl⟩,
    ⟨_, _, rfl, rfl, c.slots_stay_aligned {} 255 rfl rfl⟩, ?_, ?_, ?_, ?_⟩
  all_goals cbv

end CborSchema
