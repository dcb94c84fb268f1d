import CborSchema.Proofs.Decode.Unique
import CborSchema.Proofs.Raw.Spans
import CborSchema.Proofs.Roundtrip.Arrays

/-!
# Written bytes are items

Whatever is written is one item, also where it would not be read back.

* `collectionBytes_item` -- a head or a break around so many elements is one item of them;
* `Writing.Whole` -- what is written for these parts are items;
* `ArrayAs.item`, `MapAs.item`, `KindAs.item` -- an item of each kind is one, if its parts are;
* `Catalog.written_is_one_item` -- **what a run writes is one item**, and skipping passes over all
  of it.

The count in front of the elements and the loop that writes them are two functions of the writer. A
count is spelled in at most eight bytes, so each statement is about bytes that are fewer than `2 ^
64`.
-/

namespace CborSchema

variable {s : Shape} {w : Writing}

/-! ## 1. Collections -/

/-- A collection holds no more elements than a head can announce. -/
theorem count_lt {m : Major} {width n : Nat} {inner : Bytes} {indefinite : Bool}
    (hm : m.perElement = some width) (hs : InRow IsItem (n * width) inner)
    (hlen : (collectionBytes m indefinite n inner).length < UInt64.size) : n < UInt64.size := by
  have hwidth := Nat.pos_of_ne_zero (Major.perElement_ne_zero hm).1
  have hle := hs.length_le fun x hx => hx.ne_nil
  have hinner := length_le_collectionBytes m indefinite n inner
  have hmul := Nat.le_mul_of_pos_right n hwidth
  omega

/-- **A collection announces exactly the elements that follow**, or one break closes them. -/
theorem collectionBytes_item {m : Major} {width n : Nat} {inner : Bytes}
    (hm : m.perElement = some width) (hs : InRow IsItem (n * width) inner) (indefinite : Bool)
    (hlen : (collectionBytes m indefinite n inner).length < UInt64.size) :
    IsItem (collectionBytes m indefinite n inner) := by
  have hopen : m.hasOpenForm = true := by cases m <;> first | rfl | cases hm
  have hcount := count_lt hm hs hlen
  rw [collectionBytes]
  split
  · rw [List.append_assoc]
    exact (ItemOf.opened (indefiniteHead_spelled hopen) hm rfl hs).isItem
  · obtain ⟨info, hh⟩ := headBytes_spelled m (UInt64.ofNat n) .minimal
    rw [← UInt64.toNat_ofNat_of_lt' hcount] at hs
    exact (ItemOf.counted hh hm rfl hs).isItem

/-! ## 2. Literals and keys -/

theorem Literal.bytes_item (l : Literal) (hlen : l.bytes.length < UInt64.size) :
    IsItem l.bytes := by
  have hl : LiteralAt "" (Reading.widest 0).options.maxStringLength l l.bytes :=
    Literal.bytes_at l (Literal.within_of_bytes (Reading.widest_roomy 0 hlen).string)
  exact hl.isItem

theorem FieldKey.bytes_item (key : FieldKey) (hlen : key.bytes.length < UInt64.size) :
    IsItem key.bytes :=
  (FieldKey.bytes_at key (FieldKey.within_of_bytes (Reading.widest_roomy 0 hlen).string)).isItem

theorem nullBytes_item : IsItem nullBytes :=
  (ItemOf.plain nullBytes_spelled (by simp) (.inr (.inr rfl))).isItem

/-! ## 3. Elements and entries -/

/-- Whatever is written for these parts in at most `k` bytes is one item. -/
def Writing.Whole (w : Writing) (k : Nat) (parts : List Value) : Prop :=
  ∀ z ∈ parts, ∀ t x, x.length ≤ k → w.PartAs t z x → IsItem x

theorem Writing.Whole.mono {j k : Nat} {parts : List Value} (h : w.Whole k parts) (hjk : j ≤ k) :
    w.Whole j parts := fun z hz t x hx => h z hz t x (Nat.le_trans hx hjk)

theorem ElementAs.item {e : Field × Option Value} {x : Bytes} (h : ElementAs w e x)
    (hlen : x.length < UInt64.size) (hw : w.Whole x.length e.2.toList) : IsItem x := by
  cases h with
  | literal hf => exact Literal.bytes_item _ hlen
  | value hf hv => exact hw _ (by simp) _ _ (Nat.le_refl _) hv
  | null hf => exact nullBytes_item

/-- A field of a map that is written is a key and a value. -/
theorem KeyedAs.items {e : Field × Option Value} {x : Bytes} (h : KeyedAs w e x)
    (hlen : x.length < UInt64.size) (hw : w.Whole x.length e.2.toList) (he : isWritten e = true) :
    InRow IsItem 2 x := by
  cases h with
  | literal hf =>
    rename_i f l slot
    rw [List.length_append] at hlen
    have hkey := FieldKey.bytes_item f.key (by omega)
    have hvalue := Literal.bytes_item l (by omega)
    exact (InRow.single hkey).append (InRow.single hvalue)
  | value hf hv =>
    rename_i f type presence z u
    rw [List.length_append] at hlen
    have hkey := FieldKey.bytes_item f.key (by omega)
    have hvalue := hw _ (by simp) _ _ (by rw [List.length_append]; omega) hv
    exact (InRow.single hkey).append (InRow.single hvalue)
  | absent hf => simp [isWritten, hf] at he

theorem KeyedAs.eq_nil {e : Field × Option Value} {x : Bytes} (h : KeyedAs w e x)
    (he : isWritten e = false) : x = [] := by
  cases h with
  | literal hf => simp [isWritten, Field.isLiteral, hf] at he
  | value hf hv => simp [isWritten] at he
  | absent hf => rfl

/-- **There are as many entries as fields that are written.** -/
theorem KeyedAs.inRow {P : Bytes → Prop} {entries : List (Field × Option Value)} {inner : Bytes}
    (h : Row (KeyedAs w) entries inner) (hP : ∀ e ∈ entries, ∀ x, x.length ≤ inner.length →
      KeyedAs w e x → isWritten e = true → P x) : InRow P (entries.countP isWritten) inner := by
  have hrow : Row (fun e x => KeyedAs w e x ∧ (isWritten e = true → P x)) entries inner :=
    h.mem.length_le.mono fun e x hx => ⟨hx.2.2, hP e hx.2.1 x hx.1 hx.2.2⟩
  clear h hP
  induction hrow with
  | nil => exact .nil
  | cons hx _ ih =>
    rename_i e entries x inner _
    obtain ⟨hx, hP⟩ := hx
    by_cases he : isWritten e = true
    · rw [List.countP_cons_of_pos he]
      exact .cons (hP he) ih
    · rw [List.countP_cons_of_neg he, hx.eq_nil (by simpa using he)]
      exact ih

theorem EntryAs.items {key value : TypeExpr} {e : Value × Value} {x : Bytes}
    (h : EntryAs w key value e x) (hw : w.Whole x.length [e.1, e.2]) : InRow IsItem 2 x := by
  obtain ⟨k, u, rfl, hk, hu⟩ := h
  have hkey := hw e.1 (by simp) _ _ (by rw [List.length_append]; omega) hk
  have hvalue := hw e.2 (by simp) _ _ (by rw [List.length_append]; omega) hu
  exact (InRow.single hkey).append (InRow.single hvalue)

/-! ## 4. Items of each kind -/

theorem Shape.ArrayAs.item {p : Pieces} {u : Bytes} (h : s.ArrayAs w p u)
    (hlen : u.length < UInt64.size) (hw : w.Whole u.length p.content.parts) : IsItem u := by
  cases h with
  | items hl hc hv =>
    rename_i item vs inner
    rw [hc] at hw
    have hle := length_le_collectionBytes .array (w.indefinite s.length p.style) vs.length inner
    have hrow : Row (fun _ x => IsItem x) vs inner := hv.mem.length_le.mono fun z x hx =>
      hw z hx.2.1 item x (Nat.le_trans hx.1 hle) hx.2.2
    have hitems := hrow.inRow (Q := IsItem) fun _ _ h => h
    exact collectionBytes_item (show _ = some 1 from rfl) (by rwa [Nat.mul_one]) _ hlen
  | fields hl hc hn he =>
    rename_i fields slots inner
    rw [hc] at hw
    have hn' := hn.trans (arity_of_layout hl)
    generalize hwritten : writtenFields (alignFields fields slots) = written at *
    have hle := length_le_collectionBytes .array
        (w.indefinite s.length p.style) written.length inner
    have hrow : Row (fun _ x => IsItem x) written inner := by
      refine he.mem.length_le.mono fun e x hx => ?_
      obtain ⟨hx, hmem, he⟩ := hx
      have hmem := mem_of_mem_writtenFields (hwritten ▸ hmem)
      refine he.item (by omega) fun z hz t y hy => ?_
      exact hw z (mem_parts_of_aligned hn' hmem (Option.mem_toList.mp hz)) t y (by omega)
    have hitems := hrow.inRow (Q := IsItem) fun _ _ h => h
    exact collectionBytes_item (show _ = some 1 from rfl) (by rwa [Nat.mul_one]) _ hlen

theorem Shape.MapAs.item {p : Pieces} {u : Bytes} (h : s.MapAs w p u)
    (hlen : u.length < UInt64.size) (hw : w.Whole u.length p.content.parts) : IsItem u := by
  cases h with
  | entries hl hc he =>
    rename_i key value es inner
    rw [hc] at hw
    have hle := length_le_collectionBytes .map (w.indefinite s.length p.style) es.length inner
    have hrow : InRow (InRow IsItem 2) es.length inner := by
      refine he.mem.length_le.inRow fun e x hx => ?_
      obtain ⟨hx, hmem, he⟩ := hx
      refine he.items fun z hz t y hy => ?_
      exact hw z (List.mem_flatMap.mpr ⟨e, hmem, hz⟩) t y (by omega)
    exact collectionBytes_item rfl hrow.flatten _ hlen
  | fields hl hc hn hp he =>
    rename_i fields slots inner
    rw [hc] at hw
    have hn' := hn.trans (arity_of_layout hl)
    have hle := length_le_collectionBytes .map (w.indefinite s.length p.style)
      ((alignFields fields slots).countP isWritten) inner
    have hrow : InRow (InRow IsItem 2) ((alignFields fields slots).countP isWritten) inner := by
      refine KeyedAs.inRow he fun e hmem x hx he => he.items (by omega) fun z hz t y hy => ?_
      exact hw z (mem_parts_of_aligned hn' hmem (Option.mem_toList.mp hz)) t y (by omega)
    exact collectionBytes_item rfl hrow.flatten _ hlen

/-- **An item of any kind is one item**, if what is written for its parts are. -/
theorem Shape.KindAs.item {p : Pieces} {u : Bytes} (h : s.KindAs w p u)
    (hlen : u.length < UInt64.size) (hw : w.Whole u.length p.content.parts) : IsItem u := by
  cases h with
  | scalar hk hc hx =>
    obtain ⟨_, _, _, rfl, hh, hafter, _⟩ := writeScalarOf_read hx (Reading.widest_roomy 0 hlen)
    exact (hafter.item hh).isItem
  | list hk h => exact h.item hlen hw
  | map hk h => exact h.item hlen hw
  | constructor hk h =>
    cases h with
    | mk hi hu =>
      rw [List.length_append] at hlen hw
      have hfields := hu.item (by omega) (hw.mono (by omega))
      exact (constructorFront_at _ _).item hfields
  | union hk h =>
    cases h with
    | mk hc hm hv =>
      rw [hc] at hw
      exact hw _ (by simp [Content.parts]) _ _ (Nat.le_refl _) hv

/-- In front of an item stands nothing, or the tag of its shape. -/
theorem tagBefore_spelled (s : Shape) (style : Option ItemStyle) : s.tagBefore style = [] ∨
    ∃ (rule : TagRule) (h : Head), s.tag = some rule ∧ h.Spelled (s.tagBefore style) ∧
      h.major = .tag ∧ h.arg = some rule.number := by
  have htag : ∀ tag, ∃ h : Head, h.Spelled (tagBytes tag) ∧ h.major = .tag ∧ h.arg = some tag := by
    intro tag
    obtain ⟨info, hh⟩ := headBytes_spelled .tag tag .minimal
    exact ⟨_, hh, rfl, rfl⟩
  unfold Shape.tagBefore
  split
  · exact .inl rfl
  · rename_i ht
    exact .inr ⟨_, _, ht, (htag _).choose_spec⟩
  · rename_i ht
    exact .inr ⟨_, _, ht, (htag _).choose_spec⟩
  · rename_i ht
    split
    · exact .inr ⟨_, _, ht, (htag _).choose_spec⟩
    · exact .inl rfl

/-- A tag in front of an item makes an item of it. -/
theorem Shape.tagBefore_item (s : Shape) (style : Option ItemStyle) {u : Bytes} (hu : IsItem u) :
    IsItem (s.tagBefore style ++ u) := by
  rcases tagBefore_spelled s style with hnone | ⟨_, h, -, hh, hm, -⟩
  · rwa [hnone]
  · exact (ItemOf.tagged hh hm hu).isItem

/-! ## 5. Values -/

/-- The bytes kept at any path in a value are one item each. -/
def Value.KeepsItems (v : Value) : Prop :=
  ∀ path y raw, v.at? path = some y → y.notes.raw = some raw → IsItem raw

theorem Value.KeepsItems.part {v z : Value} (h : v.KeepsItems) (hz : z ∈ v.content.parts) :
    z.KeepsItems := by
  have hall := Value.forall_at.mp fun path y hy raw hraw => h path y raw hy hraw
  exact fun path y raw hy hraw => hall.2 z hz path y hy raw hraw

theorem Value.KeepsItems.of_parts {v : Value} (hv : v.notes.raw = none)
    (hparts : ∀ z ∈ v.content.parts, z.KeepsItems) : v.KeepsItems := by
  have hall : ∀ path y, v.at? path = some y → ∀ raw, y.notes.raw = some raw → IsItem raw := by
    refine Value.forall_at.mpr ⟨fun raw hraw => ?_, fun z hz path y hy raw hraw => ?_⟩
    · rw [hv] at hraw
      cases hraw
    · exact hparts z hz path y raw hy hraw
  exact fun path y raw hy hraw => hall path y hy raw hraw

/-- What is written is one item, by induction on the nesting that is left. -/
theorem written_item {c : Codec} {o : EncodeOptions} {n : Nat} {v : Value} {b : Bytes}
    (h : c.WrittenTo o n v b) (hv : v.KeepsItems) (hlen : b.length < UInt64.size) : IsItem b := by
  induction n generalizing v b with
  | zero => exact absurd h Codec.not_writes_zero
  | succ n ih =>
    cases Codec.write_eq_ok.mp h with
    | replayed hs hp ht hr => exact hv [] v b rfl hr
    | taken hs hr hp hk =>
      rename_i s p u
      rw [List.length_append] at hlen
      have hparts : (c.writing o n).Whole u.length p.content.parts := by
        intro z hz t x hx hpart
        rw [pieces_parts hp] at hz
        obtain rfl := hpart.type
        exact ih hpart.writes (hv.part hz) (by omega)
      exact s.tagBefore_item p.style (hk.item (by omega) hparts)

/-- **What a run writes is one item.** Whatever the value, of its type or not, and whatever the
    options: if the bytes that are kept in it are one item each and it encodes at all, to as many
    bytes as a machine can count, then these are one item. Each head of an array or a map announces
    exactly the elements that follow, or exactly one break closes them, as it does the chunks of a
    string; and with nesting for each byte skipping passes over all of them. -/
theorem Catalog.written_is_one_item (c : Catalog) (o : EncodeOptions) (v : Value)
    (hv : v.KeepsItems) (b : Bytes) (hb : (c.codec.encode v o).result = .ok b)
    (hlen : b.length < UInt64.size) :
    IsItem b ∧ ∀ levels, b.length ≤ levels → Scan.skip levels b = (.ok (), []) := by
  have hitem : IsItem b := written_item (n := o.maxDepth) hb hv hlen
  refine ⟨hitem, fun levels hlevels => ?_⟩
  have hskip := Scan.skip_reads_of_length hitem hlevels
  exact hskip.alone

/-- A map that holds one key twice is written all the same, and is one item. -/
theorem Catalog.repeated_key_is_one_item :
    let c : Catalog := { declared := fun _ => {}, printName := fun _ => "map" }
    let one : Value := .ofScalar .uint64 (.uint 1)
    let v : Value := .node (.map .uint64 .uint64) (.entries [(one, one), (one, one)]) {}
    let b : Bytes := [0xbf, 0x01, 0x01, 0x01, 0x01, 0xff]
    (c.codec.encode v { indefinite := true }).result = .ok b ∧ IsItem b ∧
      Scan.skip 6 b = (.ok (), []) := by
  intro c one v b
  have hencode : (c.codec.encode v { indefinite := true }).result = .ok b := by cbv
  have hone : one.KeepsItems := .of_parts rfl fun z hz => by cases hz
  have hv : v.KeepsItems := by
    refine .of_parts rfl fun z hz => ?_
    have hz : z ∈ [one, one, one, one] := hz
    obtain rfl : z = one := by simpa using hz
    exact hone
  obtain ⟨hitem, hskip⟩ := c.written_is_one_item { indefinite := true } v hv b hencode (by decide)
  exact ⟨hencode, hitem, hskip 6 (by decide)⟩

end CborSchema
