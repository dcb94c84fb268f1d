import CborSchema.Proofs.Roundtrip.Arrays

/-!
# Maps read back

What is written for a map is read as it, with the images of its parts.

* `KeysDiffer` -- no two keys of a dynamic map are written as the same bytes; `entries_read` -- then
  its entries are read back;
* `KeyedAt`, `foundOf` -- a field of a map that is read back, and what a run of such fields finds;
* `keyed_steps`, `lookup_foundOf`, `keyed_written` -- each field that is written is found, under its
  own key, and none is missing;
* `MapAt.of_keyed` -- fields that are read back make a map that is;
* `MapAs.read` -- **a map is read back.**
-/

namespace CborSchema

open Decoder

variable {s : Shape} {w : Writing} {r : Reading} {g : Value → Value}

/-! ## 1. Entries -/

/-- No two keys of a dynamic map are written as the same bytes. -/
def KeysDiffer (w : Writing) (content : Content Value) : Prop :=
  ∀ es, content = .entries es → es.Pairwise fun e e' => ∀ t x, w.PartAs t e.1 x →
    ¬ w.PartAs t e'.1 x

/-- **Entries that are written are read back**, where the bytes of their keys differ. -/
theorem entries_read {key value : TypeExpr} {es : List (Value × Value)} {inner : Bytes}
    (h : Row (EntryAs w key value) es inner)
    (he : ∀ e ∈ es, Echoed w r g inner.length e.1 ∧ Echoed w r g inner.length e.2)
    (hdiffer : es.Pairwise fun e e' => ∀ t x, w.PartAs t e.1 x → ¬ w.PartAs t e'.1 x) :
    ∃ es' : List (Bytes × Value × Value), Row (EntryAt r key value) es' inner ∧
      es'.map (fun e => e.2) = es.map (fun e => (g e.1, g e.2)) ∧ (es'.map Prod.fst).Nodup := by
  have hread : Row (fun e x => ∃ y, w.PartAs key e.1 y ∧
      EntryAt r key value (y, g e.1, g e.2) x) es inner := by
    refine h.mem.length_le.mono fun e x hx => ?_
    obtain ⟨hx, hmem, y, u, rfl, hy, hu⟩ := hx
    obtain ⟨hk, hv⟩ := he e hmem
    rw [List.length_append] at hx
    exact ⟨y, hy, u, rfl, (hk _ _ (by omega) hy).1, (hv _ _ (by omega) hu).1⟩
  clear h he
  -- the bytes of a key that comes later are those of another key
  have hkeys : ∃ es' : List (Bytes × Value × Value), Row (EntryAt r key value) es' inner ∧
      es'.map (fun e => e.2) = es.map (fun e => (g e.1, g e.2)) ∧ (es'.map Prod.fst).Nodup ∧
      ∀ y ∈ es'.map Prod.fst, ∃ e ∈ es, w.PartAs key e.1 y := by
    induction hread with
    | nil => exact ⟨[], .nil, rfl, .nil, by simp⟩
    | cons hx _ ih =>
      rename_i e es x inner _
      obtain ⟨y, hy, hentry⟩ := hx
      obtain ⟨hfirst, hrest⟩ := List.pairwise_cons.mp hdiffer
      obtain ⟨es', hrow, hmap, hnodup, hof⟩ := ih hrest
      refine ⟨(y, g e.1, g e.2) :: es', .cons hentry hrow, ?_, ?_, ?_⟩
      · rw [List.map_cons, List.map_cons, hmap]
      · refine List.nodup_cons.mpr ⟨fun hmem => ?_, hnodup⟩
        obtain ⟨e', he', hy'⟩ := hof y hmem
        exact hfirst e' he' key y hy hy'
      · rw [List.map_cons]
        refine List.forall_mem_cons.mpr ⟨⟨e, List.mem_cons_self, hy⟩, fun y' hy' => ?_⟩
        obtain ⟨e', he', hpart⟩ := hof y' hy'
        exact ⟨e', List.mem_cons_of_mem _ he', hpart⟩
  obtain ⟨es', hrow, hmap, hnodup, _⟩ := hkeys
  exact ⟨es', hrow, hmap, hnodup⟩

/-! ## 2. Fields under keys -/

/-- A field of a map that is read back: its key, and what stands under it. -/
inductive KeyedAt (r : Reading) (name : String) : Field × Option Value → Bytes → Prop where
  | literal {f : Field} {l : Literal} {y x : Bytes} (hf : f.body = .literal l)
      (hk : KeyAt r (.field f.key) y) (hx : LiteralAt name r.options.maxStringLength l x) :
      KeyedAt r name (f, none) (y ++ x)
  | value {f : Field} {type : TypeExpr} {presence : Presence} {v : Value} {y x : Bytes}
      (hf : f.body = .value type presence) (hk : KeyAt r (.field f.key) y)
      (hx : r.PartAt type v x) :
      KeyedAt r name (f, some v) (y ++ x)
  | absent {f : Field} (hf : f.isLiteral = false) : KeyedAt r name (f, none) []

/-- **A field that is written is read back as the image of its slot**, if a value in it is. -/
theorem KeyedAs.read {name : String} {e : Field × Option Value} {x : Bytes} (h : KeyedAs w e x)
    (hnone : e.1.isLiteral = true → e.2 = none)
    (hl : ∀ l, e.1.body = .literal l → l.bytes.length ≤ x.length →
      l.Within r.options.maxStringLength)
    (hk : isWritten e = true → e.1.key.bytes.length ≤ x.length →
      e.1.key.Within r.options.maxStringLength)
    (he : ∀ z, e.2 = some z → ∀ t u, u.length ≤ x.length → w.PartAs t z u → r.PartAt t (g z) u) :
    KeyedAt r name (imageSlot g e) x := by
  cases h with
  | literal hf =>
    rename_i f l slot
    have hslot := hnone (by simp [Field.isLiteral, hf])
    dsimp only at hslot
    subst hslot
    rw [List.length_append] at hk hl
    dsimp only at hk
    have hkey := FieldKey.bytes_at f.key (hk (by simp [isWritten, Field.isLiteral, hf]) (by omega))
    exact .literal hf hkey (Literal.bytes_at l (hl l hf (by omega)))
  | value hf hv =>
    rename_i f type presence z u
    rw [List.length_append] at hk he
    dsimp only at hk
    have hkey := FieldKey.bytes_at f.key (hk (by simp [isWritten]) (by omega))
    exact .value hf hkey (he z rfl _ _ (by omega) hv)
  | absent hf => exact .absent hf

theorem KeyedAt.startsKey {name : String} {e : Field × Option Value} {x : Bytes}
    (h : KeyedAt r name e x) (hw : isWritten e = true) : 0 < x.length := by
  have hkey : ∀ {f : Field} {y z : Bytes}, KeyAt r (.field f.key) y → 0 < (y ++ z).length := by
    intro f y z hk
    rw [List.length_append]
    exact Nat.add_pos_left (List.length_pos_of_ne_nil hk.isItem.ne_nil) _
  cases h with
  | literal hf hk hx => exact hkey hk
  | value hf hk hx => exact hkey hk
  | absent hf => simp [isWritten, hf] at hw

/-- Fields that are written are no more than their bytes. -/
theorem countP_isWritten_le {name : String} {entries : List (Field × Option Value)} {inner : Bytes}
    (h : Row (KeyedAt r name) entries inner) : entries.countP isWritten ≤ inner.length := by
  induction h with
  | nil => exact Nat.le_refl 0
  | cons hx _ ih =>
    rename_i e entries x inner _
    rw [List.length_append]
    by_cases hw : isWritten e = true
    · have hpos := hx.startsKey hw
      rw [List.countP_cons_of_pos hw]
      omega
    · rw [List.countP_cons_of_neg hw]
      omega

/-- What is found of fields that are written, the last of them first. -/
def foundOf (entries : List (Field × Option Value)) : Found :=
  ((entries.filter isWritten).map fun e => (e.1.key, e.2)).reverse

theorem foundOf_cons_of_written {e : Field × Option Value} (h : isWritten e = true)
    (entries : List (Field × Option Value)) :
    foundOf (e :: entries) = foundOf entries ++ [(e.1.key, e.2)] := by
  rw [foundOf, foundOf, List.filter_cons_of_pos h, List.map_cons, List.reverse_cons]

theorem foundOf_cons_of_absent {e : Field × Option Value} (h : isWritten e = false)
    (entries : List (Field × Option Value)) : foundOf (e :: entries) = foundOf entries := by
  rw [foundOf, foundOf, List.filter_cons_of_neg (by simp [h])]

/-- **One step for each field that is written.** -/
theorem keyed_steps {fields : List Field} (hn : (fields.map Field.key).Nodup)
    {entries : List (Field × Option Value)} {inner : Bytes}
    (h : Row (KeyedAt r s.name) entries inner) (hf : ∀ e ∈ entries, e.1 ∈ fields) (found : Found)
    (hnew : (entries.map (fun e => e.1.key) ++ found.map Prod.fst).Nodup) :
    Steps (KeyedStep s r fields) (entries.countP isWritten) found inner
      (foundOf entries ++ found) := by
  induction h generalizing found with
  | nil => exact .nil
  | cons hx _ ih =>
    rename_i e entries x inner _
    obtain ⟨hmem, hfs⟩ := List.forall_mem_cons.mp hf
    obtain ⟨hkey, hrest⟩ := List.nodup_cons.mp hnew
    have hfresh : e.1.key ∉ found.map Prod.fst := fun hk => hkey (List.mem_append_right _ hk)
    have hnext : ∀ slot : Option Value,
        (entries.map (fun e => e.1.key) ++ ((e.1.key, slot) :: found).map Prod.fst).Nodup :=
      fun slot => List.perm_middle.nodup_iff.mpr hnew
    cases hx with
    | literal hb hk hl =>
      rename_i f l y x
      have hwritten : isWritten (f, (none : Option Value)) = true := by
        simp [isWritten, Field.isLiteral, hb]
      have hsteps := ih hfs ((f.key, none) :: found) (hnext none)
      rw [List.countP_cons_of_pos hwritten, foundOf_cons_of_written hwritten, ← List.append_cons]
      exact .cons (.literal hk (find_key hn hmem) hfresh hb hl) hsteps
    | value hb hk hv =>
      rename_i f type presence v y x
      have hwritten : isWritten (f, some v) = true := by simp [isWritten]
      have hsteps := ih hfs ((f.key, some v) :: found) (hnext (some v))
      rw [List.countP_cons_of_pos hwritten, foundOf_cons_of_written hwritten, ← List.append_cons]
      exact .cons (.value hk (find_key hn hmem) hfresh hb hv) hsteps
    | absent hb =>
      rename_i f
      have hwritten : isWritten (f, (none : Option Value)) = false := by simp [isWritten, hb]
      rw [List.countP_cons_of_neg (by simp [hwritten]), foundOf_cons_of_absent hwritten,
        List.nil_append]
      exact ih hfs found hrest

theorem mem_foundOf {entries : List (Field × Option Value)} {e : Field × Option Value}
    (he : e ∈ entries) (hw : isWritten e = true) : (e.1.key, e.2) ∈ foundOf entries := by
  rw [foundOf, List.mem_reverse]
  exact List.mem_map.mpr ⟨e, List.mem_filter.mpr ⟨he, hw⟩, rfl⟩

theorem foundOf_nodup {entries : List (Field × Option Value)}
    (hn : (entries.map fun e => e.1.key).Nodup) : ((foundOf entries).map Prod.fst).Nodup := by
  rw [foundOf, List.map_reverse, List.nodup_reverse, List.map_map]
  exact hn.sublist (List.filter_sublist.map _)

theorem lookup_of_mem {found : Found} (hn : (found.map Prod.fst).Nodup) {k : FieldKey}
    {slot : Option Value} (h : (k, slot) ∈ found) : found.lookup k = some slot := by
  induction found with
  | nil => cases h
  | cons e found ih =>
    obtain ⟨hnew, hn⟩ := List.nodup_cons.mp hn
    rcases List.mem_cons.mp h with rfl | h
    · exact List.lookup_cons_self
    · have hne : k ≠ e.1 := by
        rintro rfl
        exact hnew (List.mem_map.mpr ⟨_, h, rfl⟩)
      rw [List.lookup_cons, beq_eq_false_iff_ne.mpr hne]
      exact ih hn h

/-- **Under the key of a field stands what is in its slot.** -/
theorem lookup_foundOf {entries : List (Field × Option Value)}
    (hn : (entries.map fun e => e.1.key).Nodup) {e : Field × Option Value} (he : e ∈ entries) :
    ((foundOf entries).lookup e.1.key).join = e.2 := by
  by_cases hw : isWritten e = true
  · rw [lookup_of_mem (foundOf_nodup hn) (mem_foundOf he hw)]
    rfl
  · have hslot : e.2 = none := by
      rw [isWritten, Bool.or_eq_true, not_or, Option.not_isSome_iff_eq_none] at hw
      exact hw.2
    have hlookup : (foundOf entries).lookup e.1.key = none := by
      rw [List.lookup_eq_none_iff]
      intro p hp
      rw [foundOf, List.mem_reverse] at hp
      obtain ⟨e', he', rfl⟩ := List.mem_map.mp hp
      obtain ⟨hmem, hwritten⟩ := List.mem_filter.mp he'
      rw [bne_iff_ne]
      intro hk
      obtain rfl := List.inj_on_of_nodup_map hn he hmem hk
      exact hw hwritten
    rw [hlookup, hslot]
    rfl

/-- **The slots that are read are those of the fields.** -/
theorem slotsOf_foundOf {fields : List Field} {entries : List (Field × Option Value)}
    (hf : entries.map Prod.fst = fields) (hn : (fields.map Field.key).Nodup) :
    slotsOf fields (foundOf entries) = freeSlots entries := by
  subst hf
  rw [List.map_map] at hn
  rw [slotsOf, freeSlots, List.filter_map, List.map_map]
  refine List.map_congr_left fun e he => ?_
  exact lookup_foundOf hn (List.mem_filter.mp he).1

theorem checkPresent_eq_ok {name : String} {found : Found} {fields : List Field}
    (h : ∀ f ∈ fields, f.presence = .optional ∨ f.key ∈ found.map Prod.fst) :
    checkPresent name found fields = .ok () := by
  induction fields with
  | nil => rfl
  | cons f fs ih =>
    obtain ⟨hf, hfs⟩ := List.forall_mem_cons.mp h
    have hpresent : ¬ (decide (f.presence ≠ .optional) && !(found.any fun e => e.1 == f.key)) =
        true := by
      rcases hf with hf | hf
      · simp [hf]
      · simp [any_key_eq.mpr hf]
    rw [checkPresent, if_neg hpresent]
    exact ih hfs

/-- **Fields that are written are found**, each of them once, and none that is asked for is
    missing. -/
theorem keyed_written {fields : List Field} {entries : List (Field × Option Value)} {inner : Bytes}
    (hf : entries.map Prod.fst = fields) (hn : (fields.map Field.key).Nodup)
    (h : Row (KeyedAt r s.name) entries inner)
    (hp : ∀ e ∈ entries, isWritten e = true ∨ e.1.presence = .optional) :
    Steps (KeyedStep s r fields) (entries.countP isWritten) [] inner (foundOf entries) ∧
      checkPresent s.name (foundOf entries) fields = .ok () := by
  constructor
  · have hmem : ∀ e ∈ entries, e.1 ∈ fields := by
      intro e he
      rw [← hf]
      exact List.mem_map_of_mem he
    have hnew : (entries.map (fun e => e.1.key) ++ ([] : Found).map Prod.fst).Nodup := by
      rw [← hf, List.map_map] at hn
      rw [List.map_nil, List.append_nil]
      exact hn
    have hsteps := keyed_steps hn h hmem [] hnew
    rw [List.append_nil] at hsteps
    exact hsteps
  · refine checkPresent_eq_ok fun f hfield => ?_
    rw [← hf] at hfield
    obtain ⟨e, he, rfl⟩ := List.mem_map.mp hfield
    rcases hp e he with hwritten | hoptional
    · exact .inr (List.mem_map.mpr ⟨_, mem_foundOf he hwritten, rfl⟩)
    · exact .inl hoptional

/-! ## 3. Maps -/

/-- **Fields that are written under their keys are a map** whose slots hold the images. -/
theorem Shape.MapAt.of_keyed {fields : List Field} {slots : List (Option Value)} {inner : Bytes}
    {style : Option ItemStyle} (hl : s.layout = some (.fields fields))
    (hkeys : (fields.map Field.key).Nodup)
    (hn : slots.length = fields.countP fun f => !f.isLiteral)
    (hp : ∀ e ∈ alignFields fields slots, isWritten e = true ∨ e.1.presence = .optional)
    (hread : Row (KeyedAt r s.name) ((alignFields fields slots).map (imageSlot g)) inner)
    (hmax : w.indefinite s.length style = false →
      (alignFields fields slots).countP isWritten ≤ r.options.maxCollectionLength.toNat) :
    s.MapAt r { name := s.name, content := .fields (slots.map (Option.map g)),
                style := { indefinite := w.indefinite s.length style } }
      (collectionBytes .map (w.indefinite s.length style)
        ((alignFields fields slots).countP isWritten) inner) := by
  rw [← alignFields_map] at hread
  have hpresent : ∀ e ∈ alignFields fields (slots.map (Option.map g)),
      isWritten e = true ∨ e.1.presence = .optional := by
    intro e hmem
    rw [alignFields_map] at hmem
    obtain ⟨e', hmem', rfl⟩ := List.mem_map.mp hmem
    rw [isWritten_imageSlot]
    exact hp e' hmem'
  have hfields := alignFields_fields fields (slots.map (Option.map g))
  obtain ⟨hsteps, hcheck⟩ := keyed_written hfields hkeys hread hpresent
  rw [alignFields_map, countP_isWritten_map, ← alignFields_map] at hsteps
  obtain ⟨e, front, u, hu, ho, hb, hstyle⟩ :=
    collectionBytes_opens (w := w) (s := s) (m := .map) rfl style hmax inner
  have hslots : slotsOf fields (foundOf (alignFields fields (slots.map (Option.map g)))) =
      slots.map (Option.map g) := by
    rw [slotsOf_foundOf hfields hkeys, freeSlots_alignFields (by rw [List.length_map, hn])]
  rw [hu, ← hstyle, ← hslots]
  exact .fields hl ho hb hsteps hcheck

/-- **A map that is written is read back**, in the framing it was written with. -/
theorem Shape.MapAs.read {p : Pieces} {u : Bytes} (h : s.MapAs w p u)
    (hkeys : (s.fields.map Field.key).Nodup)
    (he : ∀ z ∈ p.content.parts, Echoed w r g u.length z) (hroom : r.Roomy u.length)
    (hdiffer : KeysDiffer w p.content) :
    s.MapAt r { name := s.name, content := p.content.map g,
                style := { indefinite := w.indefinite s.length p.style } } u := by
  cases h with
  | entries hl hc hrow =>
    rename_i key value es inner
    rw [hc] at he hdiffer ⊢
    have hle := length_le_collectionBytes .map (w.indefinite s.length p.style) es.length inner
    have hparts : ∀ e ∈ es, Echoed w r g inner.length e.1 ∧ Echoed w r g inner.length e.2 := by
      intro e hmem
      have hk : e.1 ∈ (Content.entries es).parts := List.mem_flatMap.mpr ⟨e, hmem, by simp⟩
      have hv : e.2 ∈ (Content.entries es).parts := List.mem_flatMap.mpr ⟨e, hmem, by simp⟩
      exact ⟨(he _ hk).mono hle, (he _ hv).mono hle⟩
    obtain ⟨es', hrow', hmap, hnodup⟩ := entries_read hrow hparts (hdiffer es rfl)
    have hlength : es'.length = es.length := by simpa using congrArg List.length hmap
    have hcount := hrow'.length_le_bytes fun e x hx => hx.inRow.startsItem.ne_nil
    rw [hlength] at hcount
    have hmax := Nat.le_trans (Nat.le_trans hcount hle) hroom.collection
    obtain ⟨e, front, u, hu, ho, hb, hstyle⟩ :=
      collectionBytes_opens (w := w) (s := s) (m := .map) rfl p.style (fun _ => hmax) inner
    rw [← hlength] at hb
    rw [hu, ← hstyle, Content.map, ← hmap]
    exact .entries hl ho hb hrow' hnodup
  | fields hl hc hn hp hrow =>
    rename_i fields slots inner
    rw [hc] at he ⊢
    rw [fields_of_layout hl] at hkeys
    have hn' := hn.trans (arity_of_layout hl)
    have hle := length_le_collectionBytes .map (w.indefinite s.length p.style)
      ((alignFields fields slots).countP isWritten) inner
    have hread : Row (KeyedAt r s.name) ((alignFields fields slots).map (imageSlot g)) inner := by
      refine hrow.map fun e hmem x hx hw => ?_
      have hx' := Nat.le_trans hx hle
      refine hw.read (alignFields_literal hmem) (fun l _ hlen => ?_) (fun _ hlen => ?_)
        fun z hz t v hlen hv => ?_
      · exact Literal.within_of_bytes (Nat.le_trans (Nat.le_trans hlen hx') hroom.string)
      · exact FieldKey.within_of_bytes (Nat.le_trans (Nat.le_trans hlen hx') hroom.string)
      · exact (he z (mem_parts_of_aligned hn' hmem hz) _ _ (Nat.le_trans hlen hx') hv).1
    have hcount := countP_isWritten_le hread
    rw [countP_isWritten_map] at hcount
    have hcollection := hroom.collection
    exact .of_keyed hl hkeys hn' hp hread fun _ => by omega

end CborSchema
