import CborSchema.Proofs.Decode.Rests
import CborSchema.Proofs.Encode.Items
import CborSchema.Proofs.Roundtrip.Items

/-!
# Written bytes read with less nesting

A reading with more nesting left can pass over more and decode more. What was written is read the
same with less, as long as its parts are.

* `Reading.Follows` -- what one reading reads off the written parts the other reads too;
* `Row.along`, `Steps.along` -- items read in a row are the items that were written in a row;
* `ElementAs.follow`, `Laid.follow`, `EntryAs.follow`, `KeyedAs.follow` -- elements, entries and
  fields;
* `ArrayAs.follow`, `MapAs.follow`, `ConstructorAs.follow`, `KindAs.follow` -- items of each kind;
* `KindAs.followKept` -- **and so is an item**, with its tag and the bytes it keeps.

The fields of a map and the elements of an array that a shape does not know are passed over, however
deep; none of them is ever written.
-/

namespace CborSchema

open Decoder

variable {s : Shape} {t : TypeExpr} {w : Writing} {r r' : Reading}

/-! ## 1. Parts -/

/-- With the same limits on lengths, `r'` reads what `r` reads of these parts, wherever they are
    written in at most `k` bytes; and what is written for them is one item each. -/
structure Reading.Follows (r' r : Reading) (w : Writing) (k : Nat) (parts : List Value) : Prop where
  options : r'.options = r.options
  item : w.Whole k parts
  part : ∀ z ∈ parts, ∀ t x y, x.length ≤ k → w.PartAs t z x → r.PartAt t y x → r'.PartAt t y x

theorem Reading.Follows.lengths {k : Nat} {parts : List Value} (h : r'.Follows r w k parts) :
    r.options.LengthsWithin r'.options := by
  rw [h.options]
  exact ⟨Nat.le_refl _, Nat.le_refl _⟩

theorem Reading.Follows.sub {j k : Nat} {parts parts' : List Value} (h : r'.Follows r w k parts)
    (hjk : j ≤ k) (hparts : ∀ z ∈ parts', z ∈ parts) : r'.Follows r w j parts' :=
  ⟨h.options, fun z hz t x hx => h.item z (hparts z hz) t x (Nat.le_trans hx hjk),
    fun z hz t x y hx => h.part z (hparts z hz) t x y (Nat.le_trans hx hjk)⟩

/-! ## 2. Rows -/

/-- **What is read in a row lies where items were written in a row**, so many items for each
    member. -/
theorem Row.along {β : Type} {P : Bytes → Prop} {Q R : β → Bytes → Prop} {j k : Nat} {bs : List β}
    {u : Bytes} (hQ : Row Q bs u) (hP : InRow P j u) (hPk : ∀ x, P x → InRow IsItem (k + 1) x)
    (hQk : ∀ b x, Q b x → InRow IsItem (k + 1) x) (h : ∀ b x, P x → Q b x → R b x) :
    Row R bs u := by
  induction hQ generalizing j with
  | nil => exact .nil
  | cons hb _ ih =>
    rename_i b bs x rest _
    generalize hu : x ++ rest = y at hP
    cases hP with
    | nil => exact absurd (List.append_eq_nil_iff.mp hu).1 (hQk b x hb).startsItem.ne_nil
    | cons hx hs =>
      obtain ⟨rfl, rfl⟩ := (hQk b x hb).cancel (hPk _ hx) hu
      exact .cons (h b x hx hb) (ih hs)

/-- **And so does what is read step by step.** -/
theorem Decoder.Steps.along {σ : Type} {P : Bytes → Prop} {Q R : σ → Bytes → σ → Prop} {j k n : Nat}
    {a b : σ} {u : Bytes} (hQ : Steps Q n a u b) (hP : InRow P j u)
    (hPk : ∀ x, P x → InRow IsItem (k + 1) x) (hQk : ∀ a x b, Q a x b → InRow IsItem (k + 1) x)
    (h : ∀ a x b, P x → Q a x b → R a x b) : Steps R n a u b := by
  induction hQ generalizing j with
  | nil => exact .nil
  | cons hb _ ih =>
    rename_i a b c x rest n _
    generalize hu : x ++ rest = y at hP
    cases hP with
    | nil => exact absurd (List.append_eq_nil_iff.mp hu).1 (hQk a x b hb).startsItem.ne_nil
    | cons hx hs =>
      obtain ⟨rfl, rfl⟩ := (hQk a x b hb).cancel (hPk _ hx) hu
      exact .cons (h a x b hx hb) (ih hs)

/-- **The bytes around the written elements of a collection are where it is read to have them.** -/
theorem collectionBytes_cancel {m : Major} {width n k : Nat} {style : Option ItemStyle}
    {e : Pending} {inner inner' front body : Bytes} (hm : m.perElement = some width)
    (hlen : (collectionBytes m (w.indefinite s.length style) n inner).length < UInt64.size)
    (hs : InRow IsItem (n * width) inner) (ho : s.Opens r m e front) (hb : e.Body k inner' body)
    (h : collectionBytes m (w.indefinite s.length style) n inner = front ++ body) :
    inner' = inner := by
  have hopen : m.hasOpenForm = true := by cases m <;> first | rfl | cases hm
  have hn := (Reading.widest_roomy 0 (count_lt hm hs hlen)).collection
  obtain ⟨e', front', body', hu, ho', hb', _⟩ :=
    collectionBytes_opens (s := s) (w := w) (r := .widest 0) hopen style (fun _ => hn) inner
  obtain ⟨_, rfl, rfl, rfl⟩ := ho.cancel ho' (h.symm.trans hu)
  exact hb.inner_unique hb'

/-! ## 3. Arrays -/

/-- A null that is written for a slot is not read as a value. -/
theorem ElementAs.follow {f : Field} {slot slot' : Option Value} {type : TypeExpr}
    {presence : Presence} {x : Bytes} (h : ElementAs w (f, slot) x)
    (hf : r'.Follows r w x.length slot.toList) (hb : f.body = .value type presence)
    (hx : SlotAt r type presence slot' x) : SlotAt r' type presence slot' x := by
  cases hx with
  | null hp => exact .null hp
  | value hv hn =>
    cases h with
    | literal hl => cases hl.symm.trans hb
    | value hb' hw =>
      obtain ⟨rfl, rfl⟩ := FieldBody.value.inj (hb'.symm.trans hb)
      exact .value (hf.part _ (by simp) _ _ _ (Nat.le_refl _) hw hv) hn
    | null hb' =>
      obtain ⟨_, rfl⟩ := FieldBody.value.inj (hb'.symm.trans hb)
      exact absurd rfl (hn rfl)

section elements

variable {f : Field} {fs : List Field} {written : List (Field × Option Value)} {x u : Bytes}

/-- Where elements were written, an item that is read is the first of them. -/
theorem ElementAs.row_cons (hfields : written.map Prod.fst <+: f :: fs)
    (he : Row (ElementAs w) written (x ++ u)) (hx : IsItem x) (hlen : (x ++ u).length < UInt64.size)
    (hf : r'.Follows r w (x ++ u).length (written.filterMap Prod.snd)) :
    ∃ slot behind, ElementAs w (f, slot) x ∧ r'.Follows r w x.length slot.toList ∧
      behind.map Prod.fst <+: fs ∧ Row (ElementAs w) behind u ∧
      r'.Follows r w u.length (behind.filterMap Prod.snd) := by
  generalize hu : x ++ u = y at he hf hlen
  cases he with
  | nil => exact absurd (List.append_eq_nil_iff.mp hu).1 hx.ne_nil
  | cons he hs =>
    rename_i e behind x' u'
    obtain ⟨f', slot⟩ := e
    obtain ⟨rfl, hbehind⟩ := List.cons_prefix_cons.mp hfields
    rw [List.length_append] at hlen
    have hslot : r'.Follows r w x'.length slot.toList := by
      refine hf.sub (by rw [List.length_append]; omega) fun z hz => ?_
      exact List.mem_filterMap.mpr ⟨(f', slot), List.mem_cons_self, Option.mem_toList.mp hz⟩
    have hrest : r'.Follows r w u'.length (behind.filterMap Prod.snd) := by
      refine hf.sub (by rw [List.length_append]; omega) fun z hz => ?_
      obtain ⟨e, he, hz⟩ := List.mem_filterMap.mp hz
      exact List.mem_filterMap.mpr ⟨e, List.mem_cons_of_mem _ he, hz⟩
    obtain ⟨rfl, rfl⟩ := hx.cancel (he.item (by omega) hslot.item) hu
    exact ⟨slot, behind, he, hslot, hbehind, hs, hrest⟩

/-- Where nothing was written, there was no element. -/
theorem ElementAs.row_nil (he : Row (ElementAs w) written [])
    (hw : w.Whole 0 (written.filterMap Prod.snd)) : written = [] := by
  generalize hu : ([] : Bytes) = y at he
  cases he with
  | nil => rfl
  | cons he hs =>
    rename_i e behind x u
    obtain ⟨rfl, rfl⟩ := List.append_eq_nil_iff.mp hu.symm
    have hitem : IsItem [] := he.item (by decide) fun z hz t y hy => by
      refine hw z (List.mem_filterMap.mpr ⟨e, List.mem_cons_self, Option.mem_toList.mp hz⟩) t y hy
    exact absurd rfl hitem.ne_nil

/-- **Elements are laid out over the fields that they were written for.** -/
theorem Shape.Laid.follow {fields : List Field} {slots : List (Option Value)} {n : Nat}
    {inner : Bytes} (h : s.Laid r fields slots n inner) (hfields : written.map Prod.fst <+: fields)
    (he : Row (ElementAs w) written inner) (hlen : inner.length < UInt64.size)
    (hf : r'.Follows r w inner.length (written.filterMap Prod.snd)) :
    s.Laid r' fields slots n inner := by
  induction h generalizing written with
  | past hx hk =>
    -- no more elements were written than there are fields, so none was passed over
    obtain rfl := List.map_eq_nil_iff.mp (List.prefix_nil.mp hfields)
    generalize hnothing : ([] : List (Field × Option Value)) = nothing at he
    cases he with
    | nil =>
      obtain rfl := (hx.mono fun _ hx => hx.isItem).count_eq .nil
      exact .past .nil (.inl rfl)
    | cons => cases hnothing
  | literal hb hx _ ih =>
    obtain ⟨slot, behind, _, _, hfields', hs, hf'⟩ :=
      ElementAs.row_cons hfields he hx.isItem hlen hf
    rw [List.length_append] at hlen
    refine .literal hb ?_ (ih hfields' hs (by omega) hf')
    rw [hf.options]
    exact hx
  | value hb hx _ ih =>
    obtain ⟨slot, behind, hslot, hfslot, hfields', hs, hf'⟩ :=
      ElementAs.row_cons hfields he hx.isItem hlen hf
    rw [List.length_append] at hlen
    exact .value hb (hslot.follow hfslot hb hx) (ih hfields' hs (by omega) hf')
  | absent hp _ ih =>
    rename_i f fs slots _
    obtain rfl := ElementAs.row_nil he hf.item
    have hnone : ([] : List (Field × Option Value)).map Prod.fst <+: fs := List.nil_prefix
    exact .absent hp (ih hnone he hlen hf)

end elements

/-- The elements of an array are those that were written. -/
theorem Shape.ArrayAs.follow {p : Pieces} {u : Bytes} {parts : Parts} (h : s.ArrayAs w p u)
    (hf : r'.Follows r w u.length p.content.parts) (hlen : u.length < UInt64.size)
    (ha : s.ArrayAt r parts u) : s.ArrayAt r' parts u := by
  obtain ⟨e, front, body, content, n, inner, hu, ho, hb, hc, rfl⟩ := Shape.arrayAt_iff.mp ha
  refine Shape.arrayAt_iff.mpr ⟨e, front, body, content, n, inner, hu, ho.mono hf.lengths,
    hb, ?_, rfl⟩
  cases h with
  | items hl hcontent hv =>
    rename_i item vs written
    rw [hcontent] at hf
    have hle := length_le_collectionBytes .array (w.indefinite s.length p.style) vs.length written
    have hrow : InRow (fun x => IsItem x ∧ ∀ y, r.PartAt item y x → r'.PartAt item y x)
        vs.length written := hv.mem.length_le.inRow fun z x hx =>
      ⟨hf.item z hx.2.1 item x (Nat.le_trans hx.1 hle) hx.2.2,
        fun y hy => hf.part z hx.2.1 item x y (Nat.le_trans hx.1 hle) hx.2.2 hy⟩
    have hitems : InRow IsItem (vs.length * 1) written := by
      rw [Nat.mul_one]
      exact hrow.mono fun x hx => hx.1
    obtain rfl := collectionBytes_cancel (show _ = some 1 from rfl) hlen hitems ho hb hu
    cases hc with
    | fields hl' _ => cases hl.symm.trans hl'
    | items hl' hv' =>
      obtain rfl : item = _ := Layout.items.inj (Option.some.inj (hl.symm.trans hl'))
      exact .items hl (hv'.along hrow (fun x hx => .single hx.1) (fun y x hy => .single hy.item)
        fun y x hx hy => hx.2 y hy)
  | fields hl hcontent hn hrow =>
    rename_i fields slots written
    have hn' := hn.trans (arity_of_layout hl)
    have hle := length_le_collectionBytes .array (w.indefinite s.length p.style)
      (writtenFields (alignFields fields slots)).length written
    have hparts : (writtenFields (alignFields fields slots)).filterMap Prod.snd =
        p.content.parts := by
      rw [writtenFields_slots, alignFields_slots hn', hcontent]
      rfl
    rw [← hparts] at hf
    have hf' := hf.sub hle fun z hz => hz
    have hitems : InRow IsItem ((writtenFields (alignFields fields slots)).length * 1) written := by
      rw [Nat.mul_one]
      refine hrow.mem.length_le.inRow fun e x hx => hx.2.2.item (by omega) fun z hz t y hy => ?_
      refine hf'.item z ?_ t y (Nat.le_trans hy hx.1)
      exact List.mem_filterMap.mpr ⟨e, hx.2.1, Option.mem_toList.mp hz⟩
    obtain rfl := collectionBytes_cancel (show _ = some 1 from rfl) hlen hitems ho hb hu
    cases hc with
    | items hl' _ => cases hl.symm.trans hl'
    | fields hl' hs =>
      obtain rfl : fields = _ := Layout.fields.inj (Option.some.inj (hl.symm.trans hl'))
      obtain ⟨tail, hentries, _⟩ := writtenFields_append (alignFields fields slots)
      have hprefix : (writtenFields (alignFields fields slots)).map Prod.fst <+: fields := by
        refine ⟨tail.map Prod.fst, ?_⟩
        rw [← List.map_append, ← hentries, alignFields_fields]
      exact .fields hl (hs.follow hprefix hrow (by omega) hf')

/-! ## 4. Maps -/

theorem EntryAs.follow {key value : TypeExpr} {e : Value × Value} {e' : Bytes × Value × Value}
    {x : Bytes} (h : EntryAs w key value e x) (hf : r'.Follows r w x.length [e.1, e.2])
    (hx : EntryAt r key value e' x) : EntryAt r' key value e' x := by
  obtain ⟨y, u, rfl, hy, hu⟩ := h
  obtain ⟨u', hbytes, hkey, hvalue⟩ := hx
  rw [List.length_append] at hf
  have hitem := hf.item e.1 (by simp) key y (by omega) hy
  obtain ⟨rfl, rfl⟩ := hitem.cancel hkey.item hbytes
  exact ⟨u, rfl, hf.part e.1 (by simp) _ _ _ (by omega) hy hkey,
    hf.part e.2 (by simp) _ _ _ (by omega) hu hvalue⟩

/-- **An entry that was written for a field is read as its field**, and not passed over. -/
theorem KeyedAs.follow {fields : List Field} {e : Field × Option Value} {found found' : Found}
    {x : Bytes} (h : KeyedAs w e x) (hlen : x.length < UInt64.size)
    (hf : r'.Follows r w x.length e.2.toList) (hn : (fields.map Field.key).Nodup)
    (hmem : e.1 ∈ fields) (hx : KeyedStep s r fields found x found') :
    KeyedStep s r' fields found x found' := by
  have hkey : ∀ f : Field, f.key.bytes.length ≤ x.length →
      KeyAt (.widest 0) (.field f.key) f.key.bytes := fun f hle =>
    FieldKey.bytes_at f.key (FieldKey.within_of_bytes (Reading.widest_roomy 0 (by omega)).string)
  cases h with
  | literal hb =>
    rename_i f l slot
    obtain ⟨hk, hnew, hunder⟩ := hx.under hn hmem rfl (hkey f (by rw [List.length_append]; omega))
    rcases hunder with ⟨l', hb', hv, rfl⟩ | ⟨type, presence, z, hb', _, _⟩
    · refine .literal (hk.mono_field hf.lengths) (find_key hn hmem) hnew hb' ?_
      rw [hf.options]
      exact hv
    · cases hb.symm.trans hb'
  | value hb hv =>
    rename_i f type presence v u
    obtain ⟨hk, hnew, hunder⟩ := hx.under hn hmem rfl (hkey f (by rw [List.length_append]; omega))
    rcases hunder with ⟨l', hb', _, _⟩ | ⟨type', presence', z, hb', hz, rfl⟩
    · cases hb.symm.trans hb'
    · obtain ⟨rfl, rfl⟩ := FieldBody.value.inj (hb.symm.trans hb')
      refine .value (hk.mono_field hf.lengths) (find_key hn hmem) hnew hb ?_
      exact hf.part v (by simp) _ _ _ (by rw [List.length_append]; omega) hv hz
  | absent hl => exact absurd rfl hx.inRow.startsItem.ne_nil

/-- The entries of a map are those that were written. -/
theorem Shape.MapAs.follow {p : Pieces} {u : Bytes} {parts : Parts} (h : s.MapAs w p u)
    (hf : r'.Follows r w u.length p.content.parts) (hlen : u.length < UInt64.size)
    (hn : (s.fields.map Field.key).Nodup) (ha : s.MapAt r parts u) : s.MapAt r' parts u := by
  obtain ⟨e, front, body, content, n, inner, hu, ho, hb, hc, rfl⟩ := Shape.mapAt_iff.mp ha
  refine Shape.mapAt_iff.mpr ⟨e, front, body, content, n, inner, hu, ho.mono hf.lengths,
    hb, ?_, rfl⟩
  cases h with
  | entries hl hcontent hrow =>
    rename_i key value es written
    rw [hcontent] at hf
    have hle := length_le_collectionBytes .map (w.indefinite s.length p.style) es.length written
    have hcells : InRow (fun x => InRow IsItem 2 x ∧
        ∀ e', EntryAt r key value e' x → EntryAt r' key value e' x) es.length written := by
      refine hrow.mem.length_le.inRow fun e x hx => ?_
      have hfx : r'.Follows r w x.length [e.1, e.2] :=
        hf.sub (Nat.le_trans hx.1 hle) fun z hz => List.mem_flatMap.mpr ⟨e, hx.2.1, hz⟩
      exact ⟨hx.2.2.items hfx.item, fun e' he' => hx.2.2.follow hfx he'⟩
    obtain rfl := collectionBytes_cancel rfl hlen (hcells.mono fun x hx => hx.1).flatten ho hb hu
    cases hc with
    | fields hl' _ _ => cases hl.symm.trans hl'
    | entries hl' hes hkeys =>
      obtain ⟨rfl, rfl⟩ := Layout.entries.inj (Option.some.inj (hl.symm.trans hl'))
      exact .entries hl (hes.along hcells (fun x hx => hx.1) (fun e' x he' => he'.inRow)
        fun e' x hx he' => hx.2 e' he') hkeys
  | fields hl hcontent hslots hp hrow =>
    rename_i fields slots written
    rw [hcontent] at hf
    rw [Shape.fields_of_layout hl] at hn
    have hslots' := hslots.trans (arity_of_layout hl)
    have hle := length_le_collectionBytes .map (w.indefinite s.length p.style)
      ((alignFields fields slots).countP isWritten) written
    have hcells : InRow (fun x => InRow IsItem 2 x ∧ ∀ found found',
        KeyedStep s r fields found x found' → KeyedStep s r' fields found x found')
        ((alignFields fields slots).countP isWritten) written := by
      refine KeyedAs.inRow hrow fun e hmem x hx he hwritten => ?_
      have hfx := hf.sub (Nat.le_trans hx hle) fun z hz =>
        mem_parts_of_aligned hslots' hmem (Option.mem_toList.mp hz)
      have hfield : e.1 ∈ fields := by
        rw [← alignFields_fields fields slots]
        exact List.mem_map_of_mem hmem
      exact ⟨he.items (by omega) hfx.item hwritten, fun found found' hstep =>
        he.follow (by omega) hfx hn hfield hstep⟩
    obtain rfl := collectionBytes_cancel rfl hlen (hcells.mono fun x hx => hx.1).flatten ho hb hu
    cases hc with
    | entries hl' _ _ => cases hl.symm.trans hl'
    | fields hl' hs hpresent =>
      obtain rfl : fields = _ := Layout.fields.inj (Option.some.inj (hl.symm.trans hl'))
      exact .fields hl (hs.along hcells (fun x hx => hx.1) (fun found x found' hx => hx.inRow)
        fun found x found' hx hstep => hx.2 found found' hstep) hpresent

/-! ## 5. Items of each kind -/

theorem Shape.ConstructorAs.follow {p : Pieces} {u : Bytes} {parts : Parts}
    (h : s.ConstructorAs w p u) (hf : r'.Follows r w u.length p.content.parts)
    (hlen : u.length < UInt64.size) (ha : s.ConstructorAt r parts u) :
    s.ConstructorAt r' parts u := by
  cases h with
  | mk hi hu =>
    rename_i index general inner
    generalize hbytes : constructorFront index general ++ inner = bytes at ha hf hlen
    cases ha with
    | mk hi' hc ha =>
      obtain ⟨rfl, rfl, rfl⟩ := hi'.cancel (constructorFront_at index general) hbytes.symm
      rw [List.length_append] at hf hlen
      exact .mk hi' hc (hu.follow (hf.sub (by omega) fun z hz => hz) (by omega) ha)

/-- **An item of any kind is read as it was written.** Only for a union it is left open which
    candidate takes it. -/
theorem Shape.KindAs.follow {p : Pieces} {u : Bytes} {parts : Parts} (h : s.KindAs w p u)
    (hs : s.check t = .ok ()) (hf : r'.Follows r w u.length p.content.parts)
    (hlen : u.length < UInt64.size)
    (hunion : s.UnionAs w p u → s.UnionAt r parts u → s.UnionAt r' parts u)
    (ha : s.KindAt r parts u) : s.KindAt r' parts u := by
  cases h with
  | scalar hk _ _ => exact .scalar hk ((ha.scalarAt hk).mono hf.lengths)
  | list hk h => exact .list hk (h.follow hf hlen (ha.arrayAt hk))
  | map hk h => exact .map hk (h.follow hf hlen (check_keys hs hk) (ha.mapAt hk))
  | constructor hk h => exact .constructor hk (h.follow hf hlen (ha.constructorAt hk))
  | union hk h => exact .union hk (hunion h (ha.unionAt hk))

/-! ## 6. Tags -/

theorem collectionBytes_startsHead {m : Major} (hm : m.hasOpenForm = true) (indefinite : Bool)
    (n : Nat) (inner : Bytes) :
    ∃ head, StartsHead head (collectionBytes m indefinite n inner) ∧ head.major = m := by
  obtain ⟨head, front, hh, hmajor, -, hu⟩ := collectionBytes_frame hm indefinite n inner
  exact ⟨head, hu ▸ hh.starts _, hmajor⟩

/-- **What is written behind a tag does not start with one.** -/
theorem Shape.KindAs.head_ne_tag {p : Pieces} {u : Bytes} (h : s.KindAs w p u)
    (hs : s.check t = .ok ()) (htag : s.tag ≠ none) (hlen : u.length < UInt64.size) :
    ∃ head, StartsHead head u ∧ head.major ≠ .tag := by
  cases h with
  | scalar hk hc hx =>
    obtain ⟨_, _, _, rfl, hh, hafter, _⟩ := writeScalarOf_read hx (Reading.widest_roomy 0 hlen)
    exact ⟨_, hh.starts _, hafter.major_ne_tag⟩
  | list hk h =>
    have hstarts : ∃ head, StartsHead head u ∧ head.major = .array := by
      cases h with
      | items hl hc hv => exact collectionBytes_startsHead rfl _ _ _
      | fields hl hc hn he => exact collectionBytes_startsHead rfl _ _ _
    obtain ⟨head, hh, hm⟩ := hstarts
    exact ⟨head, hh, by simp [hm]⟩
  | map hk h =>
    have hstarts : ∃ head, StartsHead head u ∧ head.major = .map := by
      cases h with
      | entries hl hc he => exact collectionBytes_startsHead rfl _ _ _
      | fields hl hc hn hp he => exact collectionBytes_startsHead rfl _ _ _
    obtain ⟨head, hh, hm⟩ := hstarts
    exact ⟨head, hh, by simp [hm]⟩
  | constructor hk h => exact absurd (check_constructor hs hk).1 htag
  | union hk h => exact absurd (check_union hs hk).1 htag

/-- An item is read behind the tag that it was written behind. -/
theorem Shape.ItemAt.follow {style : Option ItemStyle} {u : Bytes} {parts : Parts}
    (h : s.ItemAt r parts (s.tagBefore style ++ u)) (hs : s.check t = .ok ())
    (hu : s.tag ≠ none → ∃ head, StartsHead head u ∧ head.major ≠ .tag)
    (hk : ∀ parts, s.KindAt r parts u → s.KindAt r' parts u) :
    s.ItemAt r' parts (s.tagBefore style ++ u) := by
  have hfront : s.tagBefore style = [] ∨
      ∃ h : Head, h.Spelled (s.tagBefore style) ∧ h.major = .tag :=
    (tagBefore_spelled s style).imp_right fun ⟨_, h, _, hh, hm, _⟩ => ⟨h, hh, hm⟩
  generalize hbytes : s.tagBefore style ++ u = b at h ⊢
  cases h with
  | untagged ht h =>
    rw [tagBefore_none ht, List.nil_append] at hbytes
    subst hbytes
    exact .untagged ht (hk _ h)
  | absent ht hh hm h =>
    have hstart := hu (by rw [ht]; simp)
    have hsame : b = u := behind_tag_unique (.inl rfl) hfront ⟨_, hh, hm⟩ hstart hbytes.symm
    subst hsame
    exact .absent ht hh hm (hk _ h)
  | tagged ht hh hm ha h =>
    have htag : s.tag ≠ none := by
      rw [ht]
      simp
    have hsame := behind_tag_unique (.inr ⟨_, hh, hm⟩) hfront (h.head_ne_tag hs htag)
        (hu htag) hbytes.symm
    subst hsame
    exact .tagged ht hh hm ha (hk _ h)

/-- **An item is read as it was written**, behind its tag and with its bytes where the shape keeps
    them. -/
theorem Shape.KindAs.followKept {p : Pieces} {u : Bytes} {parts : Parts} (h : s.KindAs w p u)
    (hs : s.check t = .ok ()) (hf : r'.Follows r w u.length p.content.parts)
    (hlen : u.length < UInt64.size)
    (hunion : ∀ parts, s.UnionAs w p u → s.UnionAt r parts u → s.UnionAt r' parts u)
    (ha : s.KeptAt r parts (s.tagBefore p.style ++ u)) :
    s.KeptAt r' parts (s.tagBefore p.style ++ u) := by
  have hitem : ∀ parts, s.ItemAt r parts (s.tagBefore p.style ++ u) →
      s.ItemAt r' parts (s.tagBefore p.style ++ u) := fun parts hi =>
    hi.follow hs (fun htag => h.head_ne_tag hs htag hlen)
      fun parts hk => h.follow hs hf hlen (hunion parts) hk
  cases ha with
  | kept hp hi => exact .kept hp (hitem _ hi)
  | dropped hp hi => exact .dropped hp (hitem _ hi)

end CborSchema
