import CborSchema.Proofs.Roundtrip.Values

/-!
# Absent slots and present slots

A field that is absent is left out at the end of an array, left out of a map, or written as null.
Read back, the same slots are empty, unless what is written for a child is null as well.

* `Shape.countWritten`, `Shape.Fits` -- what a layout of fields puts around its children, within the
  limits of a reader;
* `ArrayAs.fields_read`, `MapAs.fields_read`, `KindAs.fields_read` -- fields that are written are
  read back as the images of their slots; `KindAs.fields_kept`: behind the tag, and with the bytes
  kept;
* `Catalog.Survives` -- a slot before a round trip and after it;
* `exists_children` -- the children that are read, as a function of those that were written;
* `fields_of_encode`, `read_of_kept`, `construct_of_fields` -- from a value to its fields, and back;
* `Catalog.absence_survives` -- **absence and presence survive the wire.**
-/

namespace CborSchema

open Decoder

variable {c : Catalog} {o : EncodeOptions} {o' : DecodeOptions} {s : Shape} {w : Writing}
  {r : Reading}
  {g : Value → Value}

/-! ## 1. Around the children -/

/-- How many elements or entries the fields of a shape are written as. -/
def Shape.countWritten (s : Shape) (slots : List (Option Value)) : Nat :=
  if s.kind = .map then (alignFields s.fields slots).countP isWritten
  else (writtenFields (alignFields s.fields slots)).length

/-- What is written around the children is within the limits: how many there are, where this is
    announced, and the texts of literals and of keys. -/
structure Shape.Fits (s : Shape) (o' : DecodeOptions) (indefinite : Bool)
    (slots : List (Option Value)) : Prop where
  count : indefinite = false → s.countWritten slots ≤ o'.maxCollectionLength.toNat
  literals : ∀ f ∈ s.fields, ∀ l, f.body = .literal l → l.Within o'.maxStringLength
  keys : s.kind = .map → ∀ e ∈ alignFields s.fields slots, isWritten e = true →
    e.1.key.Within o'.maxStringLength

theorem mem_fields_of_aligned {fields : List Field} {slots : List (Option Value)}
    {e : Field × Option Value} (he : e ∈ alignFields fields slots) : e.1 ∈ fields := by
  rw [← alignFields_fields fields slots]
  exact List.mem_map_of_mem he

/-! ## 2. Fields -/

section fields

variable {p : Pieces} {slots : List (Option Value)} {u : Bytes}

/-- **Fields that are written in order are read back**, whichever of them are left out. -/
theorem Shape.ArrayAs.fields_read (h : s.ArrayAs w p u) (hk : s.kind ≠ .map)
    (hc : p.content = .fields slots)
    (hfits : s.Fits r.options (w.indefinite s.length p.style) slots)
    (he : ∀ z ∈ p.content.parts, ∀ t x, w.PartAs t z x → r.PartAt t (g z) x)
    (hnull : s.NeverNull w p.content) :
    ∃ parts, s.ArrayAt r parts u ∧ parts.content = .fields (slots.map (Option.map g)) := by
  cases h with
  | items hl hc' hv => cases hc.symm.trans hc'
  | fields hl hc' hn hrow =>
    rename_i fields slots' inner
    obtain rfl : slots = slots' := Content.fields.inj (hc.symm.trans hc')
    have hn' := hn.trans (arity_of_layout hl)
    have hread : Row (fun e x => ElementAt r s.name (imageSlot g e) x)
        (writtenFields (alignFields fields slots)) inner := by
      refine hrow.mem.mono fun e x hx => ?_
      obtain ⟨hmem, hw⟩ := hx
      have hmem' := mem_of_mem_writtenFields hmem
      refine hw.read (fun l hb _ => ?_) (fun z hz t v _ hv => ?_) fun hp => ?_
      · refine hfits.literals e.1 ?_ l hb
        rw [fields_of_layout hl]
        exact mem_fields_of_aligned hmem'
      · refine he z ?_ t v hv
        rw [hc]
        exact mem_parts_of_aligned hn' hmem' hz
      · exact hnull slots hc e (by rw [fields_of_layout hl]; exact hmem') hp
    have hmax := hfits.count
    rw [countWritten, if_neg hk, fields_of_layout hl] at hmax
    exact ⟨_, .of_elements hl hn' hread hmax, rfl⟩

/-- **Fields that are written under keys are read back**, whichever of them are left out. -/
theorem Shape.MapAs.fields_read (h : s.MapAs w p u) (hk : s.kind = .map)
    (hkeys : (s.fields.map Field.key).Nodup) (hc : p.content = .fields slots)
    (hfits : s.Fits r.options (w.indefinite s.length p.style) slots)
    (he : ∀ z ∈ p.content.parts, ∀ t x, w.PartAs t z x → r.PartAt t (g z) x) :
    ∃ parts, s.MapAt r parts u ∧ parts.content = .fields (slots.map (Option.map g)) := by
  cases h with
  | entries hl hc' hv => cases hc.symm.trans hc'
  | fields hl hc' hn hp hrow =>
    rename_i fields slots' inner
    obtain rfl : slots = slots' := Content.fields.inj (hc.symm.trans hc')
    have hn' := hn.trans (arity_of_layout hl)
    have hread : Row (KeyedAt r s.name) ((alignFields fields slots).map (imageSlot g)) inner := by
      refine hrow.map fun e hmem x _ hw => ?_
      refine hw.read (alignFields_literal hmem) (fun l hb _ => ?_) (fun hwritten _ => ?_)
        fun z hz t v _ hv => ?_
      · refine hfits.literals e.1 ?_ l hb
        rw [fields_of_layout hl]
        exact mem_fields_of_aligned hmem
      · refine hfits.keys hk e ?_ hwritten
        rw [fields_of_layout hl]
        exact hmem
      · refine he z ?_ t v hv
        rw [hc]
        exact mem_parts_of_aligned hn' hmem hz
    have hmax := hfits.count
    rw [countWritten, if_pos hk, fields_of_layout hl] at hmax
    rw [fields_of_layout hl] at hkeys
    exact ⟨_, .of_keyed hl hkeys hn' hp hread hmax, rfl⟩

/-- **Fields that are written are read back** as the images of their slots, by the kind of the
    shape. -/
theorem Shape.KindAs.fields_read {t : TypeExpr} (h : s.KindAs w p u) (hs : s.check t = .ok ())
    (hc : p.content = .fields slots)
    (hfits : s.Fits r.options (w.indefinite s.length p.style) slots)
    (he : ∀ z ∈ p.content.parts, ∀ t x, w.PartAs t z x → r.PartAt t (g z) x)
    (hnull : s.NeverNull w p.content) :
    ∃ parts, s.KindAt r parts u ∧ parts.content = .fields (slots.map (Option.map g)) := by
  cases h with
  | scalar hk hc' hx => cases hc.symm.trans hc'
  | list hk h =>
    obtain ⟨parts, hparts, hcontent⟩ := h.fields_read (by rw [hk]; simp) hc hfits he hnull
    exact ⟨parts, .list hk hparts, hcontent⟩
  | map hk h =>
    obtain ⟨parts, hparts, hcontent⟩ := h.fields_read hk (check_keys hs hk) hc hfits he
    exact ⟨parts, .map hk hparts, hcontent⟩
  | constructor hk h =>
    cases h with
    | mk hi hu =>
      rename_i index general u
      obtain ⟨parts, hparts, hcontent⟩ := hu.fields_read (by rw [hk]; simp) hc hfits he hnull
      have hfront := constructorFront_at index general
      exact ⟨_, .constructor hk (.mk hfront (checkIndex_of_constructorIndex hi) hparts), hcontent⟩
  | union hk h =>
    cases h with
    | mk hc' hm hv => cases hc.symm.trans hc'

/-- Whether or not the bytes of an item are kept, its content is the same. -/
theorem Shape.ItemAt.kept {parts : Parts} (h : s.ItemAt r parts u) :
    ∃ kept, s.KeptAt r kept u ∧ kept.content = parts.content := by
  by_cases hraw : s.preserveRaw = true
  · exact ⟨_, .kept hraw h, rfl⟩
  · exact ⟨_, .dropped (by simpa using hraw) h, rfl⟩

/-- **Fields that are written are read back** behind the tag, too, and with their bytes kept. -/
theorem Shape.KindAs.fields_kept {t : TypeExpr} (h : s.KindAs w p u) (hs : s.check t = .ok ())
    (hc : p.content = .fields slots)
    (hfits : s.Fits r.options (w.indefinite s.length p.style) slots)
    (he : ∀ z ∈ p.content.parts, ∀ t x, w.PartAs t z x → r.PartAt t (g z) x)
    (hnull : s.NeverNull w p.content) : ∃ kept, s.KeptAt r kept (s.tagBefore p.style ++ u) ∧
      kept.content = .fields (slots.map (Option.map g)) := by
  obtain ⟨parts, hkind, hcontent⟩ := h.fields_read hs hc hfits he hnull
  obtain ⟨tagged, hitem, _⟩ := hkind.tagged hs p.style
  obtain ⟨kept, hkept, hsame⟩ := hitem.kept
  exact ⟨kept, hkept, hsame.trans hcontent⟩

end fields

/-! ## 3. Children -/

/-- A slot before a round trip and after it: no child and none, or a child and what its own encoding
    decodes to, with that nesting left. -/
inductive Catalog.Survives (c : Catalog) (o : EncodeOptions) (o' : DecodeOptions) (depth : Nat) :
    Option Value → Option Value → Prop where
  | absent : Survives c o o' depth none none
  | present {z z' : Value} {x : Bytes} (hx : (c.codec.encode z o).result = .ok x)
      (hz : c.codec.trial o' depth z.type x = .ok z') : Survives c o o' depth (some z) (some z')

/-- A child is written among others as it is written alone. -/
theorem encode_of_partAs {depth : Nat} (hdepth : depth ≤ o.maxDepth) {t : TypeExpr} {z : Value}
    {x : Bytes} (h : (c.codec.writing o depth).PartAs t z x) :
    z.type = t ∧ (c.codec.encode z o).result = .ok x := by
  obtain ⟨hx, rfl⟩ := h
  exact ⟨rfl, Codec.write_mono hdepth hx⟩

/-- What the bytes of a child decode to alone is read off them among others. -/
theorem partAt_of_trial {depth : Nat} {t : TypeExpr} {x : Bytes} {z : Value}
    (h : c.codec.trial o' depth t x = .ok z) : (c.codec.reading o' depth).PartAt t z x := by
  obtain ⟨used, rest, rfl, hrest, hread⟩ := Codec.decode_eq_ok.mp h
  obtain rfl : rest = [] := hrest.resolve_left Bool.false_ne_true
  rw [List.append_nil]
  have hlengths : DecodeOptions.SameLengths
      { o' with maxDepth := depth, allowTrailing := false } o' :=
    ⟨rfl, rfl⟩
  exact ((c.codec.read_partAt o' depth t).whole
    (Codec.read_reads_sameLengths hlengths hread).whole).2

/-- **The children that are read**, as a function of those that were written. -/
theorem exists_children {depth : Nat} {children : List Value}
    (h : ∀ z ∈ children, ∀ x, (c.codec.encode z o).result = .ok x →
      ∃ z', c.codec.trial o' depth z.type x = .ok z') :
    ∃ g : Value → Value, (∀ z, (g z).type = z.type) ∧ ∀ z ∈ children, ∀ x,
      (c.codec.encode z o).result = .ok x → c.codec.trial o' depth z.type x = .ok (g z) := by
  have hone : ∀ (z : Value) (x y : Bytes), (c.codec.encode z o).result = .ok x →
      (c.codec.encode z o).result = .ok y → x = y :=
    fun z x y hx hy => Except.ok.inj (hx.symm.trans hy)
  have hself : ∀ z : Value, z.type = z.type := fun _ => rfl
  have hchild : ∀ z ∈ children, ∀ x, (c.codec.encode z o).result = .ok x →
      ∃ z' : Value, z'.type = z.type ∧ c.codec.trial o' depth z.type x = .ok z' := by
    intro z hz x hx
    obtain ⟨z', hz'⟩ := h z hz x hx
    exact ⟨z', (partAt_of_trial hz').type, hz'⟩
  exact exists_image (Q := fun z z' => z'.type = z.type) hone hself hchild

/-- **Each slot is one that survived**, its child as it is read. -/
theorem survives_map {depth : Nat} {slots : List (Option Value)}
    (h : ∀ z, some z ∈ slots → ∃ x, (c.codec.encode z o).result = .ok x ∧
      c.codec.trial o' depth z.type x = .ok (g z)) :
    List.Forall₂ (c.Survives o o' depth) slots (slots.map (Option.map g)) := by
  rw [List.forall₂_map_right_iff, List.forall₂_same]
  rintro (_ | z) hz
  · exact .absent
  · obtain ⟨x, hx, hz'⟩ := h z hz
    exact .present hx hz'

/-! ## 4. Round trips -/

/-- A value that holds slots and replays no bytes is written as its tag and its fields. -/
theorem fields_of_encode {v : Value} (hs : c.resolve v.type = .ok s) {slots : List (Option Value)}
    (hv : v.content = .fields slots) (hraw : s.preserveRaw = true → v.notes.raw = none) {b : Bytes}
    (hb : (c.codec.encode v o).result = .ok b) :
    ∃ n u, n ≤ o.maxDepth ∧ b = s.tagBefore v.notes.emit ++ u ∧
      s.KindAs (c.codec.writing o n) v.asPieces u := by
  rw [Codec.encode] at hb
  cases hn : o.maxDepth with
  | zero =>
    rw [hn] at hb
    exact absurd hb Codec.not_writes_zero
  | succ n =>
    have hpieces : c.codec.catalog.pieces v.type v = .ok v.asPieces :=
      pieces_of_forWriting fun x hx => by
        rw [hv] at hx
        cases hx
    rw [hn, Codec.write_of_pieces_eq_ok hs hraw hpieces] at hb
    obtain ⟨u, hk, rfl⟩ := hb
    exact ⟨n, u, Nat.le_succ n, rfl, hk⟩

/-- What is read off bytes that hold parts of a type is the value built from these parts. -/
theorem read_of_kept {t : TypeExpr} (hs : c.resolve t = .ok s) {depth : Nat} {parts : Parts}
    {b : Bytes} (h : s.KeptAt (c.codec.reading o' depth) parts b) (rest : Bytes) :
    (c.codec.read o' (depth + 1) t (b ++ rest)).result =
      (c.construct t s parts).map fun v => (v, rest) := by
  rw [Codec.read_of_resolves hs, bind_of_ok (readKept_reads h rest)]
  show (Decoder.ofExcept (c.construct t s parts) rest).result = _
  cases c.construct t s parts with
  | error e => rfl
  | ok v => rfl

/-- What a run of a type answers is the value built from the parts that it reads off its bytes. -/
theorem decode_of_kept {t : TypeExpr} (hs : c.resolve t = .ok s) {depth : Nat}
    (hdepth : o'.maxDepth = depth + 1) {parts : Parts} {b : Bytes}
    (h : s.KeptAt (c.codec.reading o' depth) parts b) :
    (c.codec.decode t b o').result = c.construct t s parts := by
  have hread : (c.codec.read o' o'.maxDepth t b).result =
      (c.construct t s parts).map fun v => (v, []) := by
    rw [hdepth, ← read_of_kept hs h [], List.append_nil]
  rw [Codec.decode_finish, hread]
  cases c.construct t s parts with
  | error e => rfl
  | ok v => exact if_pos (by simp)

/-- A type that is built by its shape takes all slots of fields that were written. -/
theorem construct_of_fields {p : Pieces} {u : Bytes} (h : s.KindAs w p u) {t : TypeExpr}
    (hs : s.check t = .ok ()) {slots : List (Option Value)} (hc : p.content = .fields slots)
    (hg : ∀ z, (g z).type = z.type) {parts : Parts}
    (hparts : parts.content = .fields (slots.map (Option.map g))) {name : String}
    (hdefault : (c.declared name).conversion.Default) :
    ∃ v', c.construct (.named name) s parts = .ok v' ∧
      v'.content = .fields (slots.map (Option.map g)) := by
  have hsame : parts.content = p.content.wire.map g := by
    rw [hparts, hc]
    rfl
  have hcontent := contentOf_rebuilt (c := c) hdefault hs h
    (fun kind x _ hx => by cases hc.symm.trans hx) hg hsame
  rw [hc] at hcontent
  exact ⟨_, construct_named hdefault hcontent, rfl⟩

/-- **Absence and presence survive the wire.** Let a type resolve to a shape, and let a value of it
    that holds slots encode without replaying bytes. Let the reader have one level of nesting for
    the fields, and limits that hold what is written around their children:

    * each child that is there decodes alone, with the nesting that is left below the fields;
    * no child of a nullable field is written as null.

    Then the bytes are read as slots of which the same are empty, each of the others with what the
    own encoding of its child decodes to, and from these the value is built. A type that is built by
    its shape decodes to a value that holds them. -/
theorem Catalog.absence_survives (c : Catalog) (o : EncodeOptions) (o' : DecodeOptions) (v : Value)
    (s : Shape) (hs : c.resolve v.type = .ok s) (slots : List (Option Value))
    (hv : v.content = .fields slots) (hraw : s.preserveRaw = true → v.notes.raw = none) (b : Bytes)
    (hb : (c.codec.encode v o).result = .ok b) (depth : Nat) (hdepth : o'.maxDepth = depth + 1)
    (hfits : s.Fits o' ((c.codec.writing o o.maxDepth).indefinite s.length v.notes.emit) slots)
    (hchildren : ∀ z, some z ∈ slots → ∀ x, (c.codec.encode z o).result = .ok x →
      ∃ z', c.codec.trial o' depth z.type x = .ok z')
    (hnull : ∀ e ∈ alignFields s.fields slots, e.1.presence = .nullable → ∀ z, e.2 = some z →
      (c.codec.encode z o).result ≠ .ok nullBytes) :
    ∃ parts slots', (c.codec.decode v.type b o').result = c.construct v.type s parts ∧
      parts.content = .fields slots' ∧ slots'.map Option.isSome = slots.map Option.isSome ∧
      List.Forall₂ (c.Survives o o' depth) slots slots' ∧
      ∀ name, v.type = .named name → (c.declared name).conversion.Default →
        ∃ v', (c.codec.decode v.type b o').result = .ok v' ∧ v'.content = .fields slots' := by
  have hmem : ∀ z, z ∈ v.asPieces.content.parts ↔ some z ∈ slots := by
    intro z
    rw [Value.asPieces, hv]
    simp [Content.parts]
  have hread : ∀ z ∈ v.asPieces.content.parts, ∀ x, (c.codec.encode z o).result = .ok x →
      ∃ z', c.codec.trial o' depth z.type x = .ok z' := fun z hz => hchildren z ((hmem z).mp hz)
  obtain ⟨g, htype, hg⟩ := exists_children hread
  obtain ⟨n, u, hn, rfl, hk⟩ := fields_of_encode hs hv hraw hb
  have hcheck := (resolve_check hs).1
  -- the writer has less nesting left for a child than where it is encoded alone, and writes the
  -- same
  have hparts : ∀ z ∈ v.asPieces.content.parts, ∀ t x, (c.codec.writing o n).PartAs t z x →
      (c.codec.reading o' depth).PartAt t (g z) x := by
    intro z hz t x hx
    obtain ⟨rfl, halone⟩ := encode_of_partAs hn hx
    exact partAt_of_trial (hg z hz x halone)
  have hnever : s.NeverNull (c.codec.writing o n) v.asPieces.content := by
    intro slots' hslots e he hp z hz t hx
    obtain rfl := Content.fields.inj (hv.symm.trans hslots)
    exact hnull e he hp z hz (encode_of_partAs hn hx).2
  obtain ⟨kept, hkept, hslots⟩ := hk.fields_kept hcheck hv hfits hparts hnever
  have hdecode := decode_of_kept hs hdepth hkept
  have hsurvives : List.Forall₂ (c.Survives o o' depth) slots (slots.map (Option.map g)) := by
    refine survives_map fun z hz => ?_
    have hz := (hmem z).mpr hz
    obtain ⟨x, hx⟩ := hk.cut.exists_of_mem hz
    have hx := (encode_of_partAs hn hx).2
    exact ⟨x, hx, hg z hz x hx⟩
  refine ⟨kept, _, hdecode, hslots, ?_, hsurvives, fun name hname hdefault => ?_⟩
  · rw [List.map_map]
    exact List.map_congr_left fun slot _ => Option.isSome_map
  · obtain ⟨v', hv', hcontent⟩ := construct_of_fields hk hcheck hv htype hslots hdefault
    exact ⟨v', hdecode.trans (hname ▸ hv'), hcontent⟩

/-- A literal, a child of a nullable field that is there and one that is not, and a field left
    out. -/
theorem Catalog.slots_of_a_list_survive :
    let c : Catalog := {
      declared := fun _ => { schema :=
        (((Schema.list.withLiteral (.int 0) (.text "v")).withValue
          (.int 1) .text .nullable).withValue
          (.int 2) .text .nullable).withValue (.int 3) .uint64 .optional }
      printName := fun _ => "note" }
    let a : Value := .ofScalar .text (.text "a")
    let v : Value := .node (.named "note") (.fields [some a, none, none]) {}
    let b : Bytes := [0x83, 0x61, 0x76, 0x61, 0x61, 0xf6]
    (c.codec.encode v).result = .ok b ∧ ∃ s parts slots', c.resolve v.type = .ok s ∧
      (c.codec.decode v.type b).result = c.construct v.type s parts ∧
      parts.content = .fields slots' ∧ slots'.map Option.isSome = [true, false, false] ∧
      List.Forall₂ (c.Survives {} {} 255) [some a, none, none] slots' ∧
      ∃ v', (c.codec.decode v.type b).result = .ok v' ∧ v'.content = .fields slots' := by
  intro c a v b
  have ha : (c.codec.encode a).result = .ok [0x61, 0x61] := by cbv
  have htrial : c.codec.trial {} 255 .text [0x61, 0x61] = .ok a := by cbv
  have hencode : (c.codec.encode v).result = .ok b := by cbv
  have hchild : ∀ z, some z ∈ [some a, none, none] → z = a := by simp
  obtain ⟨parts, slots', hdecode, hparts, hsome, hsurvives, hbuilt⟩ :=
    c.absence_survives {} {} v _ rfl [some a, none, none] rfl (fun _ => rfl) b hencode 255 rfl
      { count := fun _ => by decide
        literals := fun f hf l hl t ht => by
          have hf : f ∈ [⟨.int 0, .literal (.text "v")⟩, ⟨.int 1, .value .text .nullable⟩,
            ⟨.int 2, .value .text .nullable⟩, ⟨.int 3, .value .uint64 .optional⟩] := hf
          simp only [List.mem_cons, List.not_mem_nil, or_false] at hf
          rcases hf with rfl | rfl | rfl | rfl
          · cases hl
            cases ht
            decide
          all_goals cases hl
        keys := fun hk => by cases hk }
      (fun z hz x hx => by
        obtain rfl := hchild z hz
        obtain rfl := Except.ok.inj (hx.symm.trans ha)
        exact ⟨a, htrial⟩)
      fun e he _ z hz hx => by
        have hpart := mem_parts_of_aligned rfl he hz
        obtain rfl := List.mem_singleton.mp hpart
        cases Except.ok.inj (hx.symm.trans ha)
  exact ⟨hencode, _, parts, slots', rfl, hdecode, hparts, hsome, hsurvives,
    hbuilt "note" rfl ⟨rfl, rfl⟩⟩

/-- A null that is there reads back as absent, and bytes that were kept are written in place of the
    slots. Where a child decodes alone, a reader may lack the nesting, the number of elements or the
    length of text that the list around it takes. -/
theorem Catalog.presence_is_lost :
    let c : Catalog := {
      declared := fun name => { schema :=
        if name = "nullable" then Schema.list.withValue (.int 0) .null .nullable
        else if name = "kept" then (Schema.list.withValue (.int 0) .uint64 .optional).keepingRaw
        else (Schema.list.withLiteral (.int 0) (.text "v")).withValue (.int 1) .uint64 .required }
      printName := fun _ => "list" }
    let null : Value := .ofScalar .null .null
    let five : Value := .ofScalar .uint64 (.uint 5)
    let list (name : String) (slot : Option Value) (raw : Option Bytes) : Value :=
      .node (.named name) (.fields [slot]) { raw }
    (c.codec.encode null).result = .ok [0xf6] ∧
      (c.codec.decode .null [0xf6]).result = .ok null ∧
      (c.codec.encode (list "nullable" (some null) none)).result = .ok [0x81, 0xf6] ∧
      (c.codec.decode (.named "nullable") [0x81, 0xf6]).result = .ok (list "nullable" none none) ∧
      (c.codec.encode (list "kept" (some five) (some [0x80]))).result = .ok [0x80] ∧
      (c.codec.decode (.named "kept") [0x80]).result = .ok (list "kept" none (some [0x80])) ∧
      (c.codec.encode (list "marked" (some five) none)).result = .ok [0x82, 0x61, 0x76, 0x05] ∧
      ∀ o' ∈ [{ maxDepth := 1 }, { maxCollectionLength := 1 }, { maxStringLength := 0 }],
        (c.codec.decode .uint64 [0x05] o').result = .ok five ∧
          (c.codec.decode (.named "marked") [0x82, 0x61, 0x76, 0x05] o').result.toOption =
          none := by
  intro c null five list
  refine ⟨?_, ?_, ?_, ?_, ?_, ?_, ?_, fun o' ho' => ?_⟩
  case refine_8 =>
    simp only [List.mem_cons, List.not_mem_nil, or_false] at ho'
    rcases ho' with rfl | rfl | rfl
    all_goals exact ⟨by cbv, by cbv⟩
  all_goals cbv

end CborSchema
