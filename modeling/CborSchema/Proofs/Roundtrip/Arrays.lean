import CborSchema.Proofs.Decode.Constructors
import CborSchema.Proofs.Decode.Elements
import CborSchema.Proofs.Roundtrip.Parts
import CborSchema.Proofs.Shape.Checked

/-!
# Arrays read back

What is written for an array or a constructor is read as it, with the images of its parts.

* `collectionBytes_opens` -- a collection that is written opens as one with so many elements;
* `freeSlots` -- the slots of fields, which are read one by one;
* `positional_omitted`, `positional_written` -- fields left out at the end read as absent, and
  fields that are written as what stands in their slots;
* `ArrayAt.of_elements` -- elements that are read back make an array that is;
* `ArrayAs.read`, `ConstructorAs.read` -- **an array and a constructor are read back.**
-/

namespace CborSchema

variable {s : Shape} {w : Writing} {r : Reading} {g : Value → Value}

/-! ## 1. The head of a collection -/

theorem requireFraming_of_indefinite (w : Writing) (style : Option ItemStyle) :
    s.requireFraming (w.indefinite s.length style) = .ok () := by
  unfold Shape.requireFraming Writing.indefinite
  cases s.length <;> rfl

/-- What is written around the parts of a collection announces them, in the framing asked for. -/
theorem collectionBytes_opens {m : Major} (hm : m.hasOpenForm = true) (style : Option ItemStyle)
    {n : Nat} (hn : w.indefinite s.length style = false → n ≤ r.options.maxCollectionLength.toNat)
    (inner : Bytes) :
    ∃ (e : Pending) (front u : Bytes),
      collectionBytes m (w.indefinite s.length style) n inner = front ++ u ∧ s.Opens r m e front ∧
        e.Body n inner u ∧ e.style = { indefinite := w.indefinite s.length style } := by
  have hframing := requireFraming_of_indefinite (s := s) w style
  rw [collectionBytes]
  by_cases hi : w.indefinite s.length style = true
  · rw [hi] at hframing ⊢
    rw [if_pos rfl, List.append_assoc]
    exact ⟨.toBreak, _, _, rfl, .toBreak (indefiniteHead_spelled hm) rfl rfl hframing,
      .toBreak, rfl⟩
  · rw [Bool.not_eq_true] at hi
    have hn := hn hi
    rw [hi] at hframing ⊢
    rw [if_neg Bool.false_ne_true]
    obtain ⟨info, hh⟩ := headBytes_spelled m (UInt64.ofNat n) .minimal
    have hmax := r.options.maxCollectionLength.toNat_lt
    have hcount : (UInt64.ofNat n).toNat = n := by
      refine UInt64.toNat_ofNat_of_lt' ?_
      rw [UInt64.size]
      omega
    have hopens : s.Opens r m (.counted (UInt64.ofNat n).toNat)
        (headBytes m (UInt64.ofNat n) .minimal) :=
      .counted hh rfl rfl hframing (by rw [hcount]; exact hn)
    rw [hcount] at hopens
    exact ⟨.counted n, _, _, rfl, hopens, .counted, rfl⟩

/-- Members of a row that are items are no more than their bytes. -/
theorem Row.length_le_bytes {α : Type} {P : α → Bytes → Prop} {as : List α} {bytes : Bytes}
    (h : Row P as bytes) (hP : ∀ a x, P a x → x ≠ []) : as.length ≤ bytes.length :=
  (h.inRow hP).length_le fun _ hx => hx

/-! ## 2. Fields in order -/

/-- The slots of fields that are no literals. -/
def freeSlots (entries : List (Field × Option Value)) : List (Option Value) :=
  (entries.filter fun e => !e.1.isLiteral).map Prod.snd

theorem freeSlots_literal {f : Field} {l : Literal} (hf : f.body = .literal l) (slot : Option Value)
    (entries : List (Field × Option Value)) :
    freeSlots ((f, slot) :: entries) = freeSlots entries := by
  simp [freeSlots, Field.isLiteral, hf]

theorem freeSlots_value {f : Field} {type : TypeExpr} {presence : Presence}
    (hf : f.body = .value type presence) (slot : Option Value)
    (entries : List (Field × Option Value)) :
    freeSlots ((f, slot) :: entries) = slot :: freeSlots entries := by
  simp [freeSlots, Field.isLiteral, hf]

theorem alignFields_fields (fields : List Field) (slots : List (Option Value)) :
    (alignFields fields slots).map Prod.fst = fields := by
  induction fields generalizing slots with
  | nil => rfl
  | cons f fs ih =>
    unfold alignFields
    split
    · rw [List.map_cons, ih]
    · split
      · rw [List.map_cons, ih]
      · rw [List.map_cons, ih]

/-- **Every slot is that of its field**, where there are as many as fields that are no literals. -/
theorem freeSlots_alignFields {fields : List Field} {slots : List (Option Value)}
    (hn : slots.length = fields.countP fun f => !f.isLiteral) :
    freeSlots (alignFields fields slots) = slots := by
  induction fields generalizing slots with
  | nil =>
    obtain rfl := List.eq_nil_of_length_eq_zero hn
    rfl
  | cons f fs ih =>
    unfold alignFields
    split
    · rename_i hf
      rw [List.countP_cons_of_neg (by simp [hf])] at hn
      have hrest := ih hn
      rw [freeSlots] at hrest ⊢
      rw [List.filter_cons_of_neg (by simp [hf]), hrest]
    · rename_i hf
      rw [List.countP_cons_of_pos (by simp [hf])] at hn
      cases slots with
      | nil => cases hn
      | cons slot slots =>
        have hrest := ih (Nat.succ.inj hn)
        rw [freeSlots] at hrest ⊢
        rw [List.filter_cons_of_pos (by simp [hf]), List.map_cons, hrest]

/-- An omitted field holds a value, and its slot is empty. -/
theorem omitted_eq_true {e : Field × Option Value} (h : omitted e = true) :
    e.2 = none ∧ e.1.presence = .optional ∧ ∃ type, e.1.body = .value type .optional := by
  rw [omitted, Bool.and_eq_true, Option.isNone_iff_eq_none, beq_iff_eq] at h
  refine ⟨h.1, h.2, ?_⟩
  have hp := h.2
  rw [Field.presence] at hp
  split at hp
  · rename_i type presence hb
    subst hp
    exact ⟨type, hb⟩
  · cases hp

/-- **Fields left out at the end read as absent**, and the bytes that end the array are used
    once. -/
theorem positional_omitted {name : String} {tail : List (Field × Option Value)}
    (ht : ∀ e ∈ tail, omitted e = true) {e : Pending} {v : Bytes} (he : e.Ends v) :
    ∃ (e' : Pending) (u u' : Bytes),
      Positional r name (tail.map Prod.fst) e ((freeSlots tail).map (Option.map g)) e' u ∧
        e'.Ends u' ∧ u ++ u' = v := by
  induction tail generalizing e v with
  | nil => exact ⟨e, [], v, .nil, he, rfl⟩
  | cons entry tail ih =>
    obtain ⟨hentry, htail⟩ := List.forall_mem_cons.mp ht
    obtain ⟨hslot, hpresence, type, hb⟩ := omitted_eq_true hentry
    obtain ⟨e', u, u', hp, he', hnil⟩ := ih htail .counted
    obtain ⟨f, slot⟩ := entry
    dsimp only at hslot hpresence hb
    subst hslot
    rw [freeSlots_value hb]
    exact ⟨e', v ++ u, u', .absent hpresence he hp,
      he', by rw [List.append_assoc, hnil, List.append_nil]⟩

/-- The element of a field that is read back: a literal, or what stands in its slot. -/
inductive ElementAt (r : Reading) (name : String) : Field × Option Value → Bytes → Prop where
  | literal {f : Field} {l : Literal} {slot : Option Value} {x : Bytes} (hf : f.body = .literal l)
      (hx : LiteralAt name r.options.maxStringLength l x) : ElementAt r name (f, slot) x
  | value {f : Field} {type : TypeExpr} {presence : Presence} {slot : Option Value} {x : Bytes}
      (hf : f.body = .value type presence) (hx : SlotAt r type presence slot x) :
      ElementAt r name (f, slot) x

theorem ElementAt.isItem {name : String} {e : Field × Option Value} {x : Bytes}
    (h : ElementAt r name e x) : IsItem x := by
  cases h with
  | literal hf hx => exact hx.isItem
  | value hf hx => exact hx.isItem

/-- **An element that is written is read back as the image of its slot**, if a value in it is. -/
theorem ElementAs.read {name : String} {e : Field × Option Value} {x : Bytes} (h : ElementAs w e x)
    (hl : ∀ l, e.1.body = .literal l → l.bytes.length ≤ x.length →
      l.Within r.options.maxStringLength)
    (he : ∀ z, e.2 = some z → ∀ t u, u.length ≤ x.length → w.PartAs t z u → r.PartAt t (g z) u)
    (hnull : e.1.presence = .nullable → ∀ z, e.2 = some z → ∀ t, ¬ w.PartAs t z nullBytes) :
    ElementAt r name (imageSlot g e) x := by
  cases h with
  | literal hf => exact .literal hf (Literal.bytes_at _ (hl _ hf (Nat.le_refl _)))
  | value hf hv =>
    rename_i f type presence z
    have himage := he z rfl _ _ (Nat.le_refl _) hv
    refine .value hf (.value himage fun hp hhead => ?_)
    have hpresence : f.presence = .nullable := by rw [Field.presence, hf, hp]
    have hbytes : x = nullBytes := himage.item.eq_null hhead
    rw [hbytes] at hv
    exact hnull hpresence z rfl type hv
  | null hf => exact .value hf (.null rfl)

/-- **Fields that are written are read in order, and those left out at the end read as absent.** -/
theorem positional_written {name : String} {written tail : List (Field × Option Value)}
    {inner : Bytes} (h : Row (fun e x => ElementAt r name (imageSlot g e) x) written inner)
    (ht : ∀ e ∈ tail, omitted e = true) {e : Pending} {v : Bytes}
    (hb : e.Body written.length inner v) :
    ∃ (e' : Pending) (u u' : Bytes),
      Positional r name ((written ++ tail).map Prod.fst) e
        ((freeSlots (written ++ tail)).map (Option.map g)) e' u ∧ e'.Ends u' ∧ u ++ u' = v := by
  induction h generalizing e v with
  | nil => exact positional_omitted ht hb.ends
  | cons hx _ ih =>
    rename_i entry written x inner _
    obtain ⟨f, slot⟩ := entry
    obtain ⟨e₁, v₁, hmore, rfl, hb₁⟩ := hb.uncons
    obtain ⟨e', u, u', hp, he', rfl⟩ := ih hb₁
    have hassoc : (x ++ u) ++ u' = x ++ (u ++ u') := List.append_assoc _ _ _
    generalize hi : imageSlot g (f, slot) = image at hx
    cases hx with
    | literal hf hx =>
      cases hi
      rw [List.cons_append, freeSlots_literal hf]
      exact ⟨e', x ++ u, u', .literal hf hmore hx hp, he', hassoc⟩
    | value hf hx =>
      cases hi
      rw [List.cons_append, freeSlots_value hf]
      exact ⟨e', x ++ u, u', .value hf hmore hx hp, he', hassoc⟩

/-! ## 3. Arrays -/

/-- No slot of a nullable field is written as null. -/
def Shape.NeverNull (s : Shape) (w : Writing) (content : Content Value) : Prop :=
  ∀ slots, content = .fields slots → ∀ e ∈ alignFields s.fields slots, e.1.presence = .nullable →
    ∀ z, e.2 = some z → ∀ t, ¬ w.PartAs t z nullBytes

theorem Shape.fields_of_layout {fields : List Field} (hl : s.layout = some (.fields fields)) :
    s.fields = fields := by
  rw [Shape.fields, hl]

/-- **Fields that are written in order are an array** whose slots hold the images. -/
theorem Shape.ArrayAt.of_elements {fields : List Field} {slots : List (Option Value)}
    {inner : Bytes} {style : Option ItemStyle} (hl : s.layout = some (.fields fields))
    (hn : slots.length = fields.countP fun f => !f.isLiteral)
    (hread : Row (fun e x => ElementAt r s.name (imageSlot g e) x)
      (writtenFields (alignFields fields slots)) inner)
    (hmax : w.indefinite s.length style = false →
      (writtenFields (alignFields fields slots)).length ≤ r.options.maxCollectionLength.toNat) :
    s.ArrayAt r { name := s.name, content := .fields (slots.map (Option.map g)),
                  style := { indefinite := w.indefinite s.length style } }
      (collectionBytes .array (w.indefinite s.length style)
        (writtenFields (alignFields fields slots)).length inner) := by
  obtain ⟨tail, hentries, htail⟩ := writtenFields_append (alignFields fields slots)
  generalize writtenFields (alignFields fields slots) = written at *
  obtain ⟨e, front, u, hu, ho, hb, hstyle⟩ :=
    collectionBytes_opens (w := w) (s := s) (m := .array) rfl style hmax inner
  obtain ⟨e', v, v', hp, he', rfl⟩ := positional_written hread htail hb
  rw [← hentries, alignFields_fields, freeSlots_alignFields hn] at hp
  rw [hu, ← hstyle]
  exact .fields hl ho hp he'.body .nil (.inl rfl)

/-- **An array that is written is read back**, in the framing it was written with. -/
theorem Shape.ArrayAs.read {p : Pieces} {u : Bytes} (h : s.ArrayAs w p u)
    (he : ∀ z ∈ p.content.parts, Echoed w r g u.length z) (hroom : r.Roomy u.length)
    (hnull : s.NeverNull w p.content) :
    s.ArrayAt r { name := s.name, content := p.content.map g,
                  style := { indefinite := w.indefinite s.length p.style } } u := by
  cases h with
  | items hl hc hv =>
    rename_i item vs inner
    rw [hc] at he ⊢
    have hle := length_le_collectionBytes .array (w.indefinite s.length p.style) vs.length inner
    have hrow : Row (r.PartAt item) (vs.map g) inner := hv.map fun z hz x hx hw =>
      (((he z hz).mono hle) _ _ hx hw).1
    have hcount := hrow.length_le_bytes fun z x hz => hz.item.ne_nil
    rw [List.length_map] at hcount
    have hmax := Nat.le_trans (Nat.le_trans hcount hle) hroom.collection
    obtain ⟨e, front, u, hu, ho, hb, hstyle⟩ :=
      collectionBytes_opens (w := w) (s := s) (m := .array) rfl p.style (fun _ => hmax) inner
    rw [hu, ← hstyle]
    rw [← List.length_map g] at hb
    exact .items hl ho hb hrow
  | fields hl hc hn hrow =>
    rename_i fields slots inner
    rw [hc] at he hnull ⊢
    have hn' := hn.trans (arity_of_layout hl)
    have hle := length_le_collectionBytes .array (w.indefinite s.length p.style)
      (writtenFields (alignFields fields slots)).length inner
    have hread : Row (fun e x => ElementAt r s.name (imageSlot g e) x)
        (writtenFields (alignFields fields slots)) inner := by
      refine hrow.mem.length_le.mono fun e x hx => ?_
      obtain ⟨hx, hmem, hw⟩ := hx
      have hmem' := mem_of_mem_writtenFields hmem
      have hx' := Nat.le_trans hx hle
      refine hw.read (fun l _ hlen => ?_) (fun z hz t v hlen hv => ?_) fun hp => ?_
      · exact Literal.within_of_bytes (Nat.le_trans (Nat.le_trans hlen hx') hroom.string)
      · exact (he z (mem_parts_of_aligned hn' hmem' hz) _ _ (Nat.le_trans hlen hx') hv).1
      · exact hnull slots rfl e (by rw [fields_of_layout hl]; exact hmem') hp
    have hcount := hread.length_le_bytes fun e x hx => hx.isItem.ne_nil
    have hmax := Nat.le_trans (Nat.le_trans hcount hle) hroom.collection
    exact .of_elements hl hn' hread fun _ => hmax

/-! ## 4. Constructors -/

/-- **The short tag of an index is read as the index.** -/
theorem Tag.index?_ofIndex? {index tag : UInt64} (h : Tag.ofIndex? index = some tag) :
    Tag.index? tag = some index := by
  have h6 : (6 : UInt64).toNat = 6 := rfl
  have h7 : (7 : UInt64).toNat = 7 := rfl
  have h121 : (121 : UInt64).toNat = 121 := rfl
  have h127 : (127 : UInt64).toNat = 127 := rfl
  have h1280 : (1280 : UInt64).toNat = 1280 := rfl
  have h1400 : (1400 : UInt64).toNat = 1400 := rfl
  rw [Tag.ofIndex?] at h
  rw [Tag.index?]
  simp only [Bool.and_eq_true, decide_eq_true_eq]
  simp only [UInt64.le_iff_toNat_le] at h ⊢
  split at h
  · rename_i hi
    cases h
    have htag : (121 + index).toNat = 121 + index.toNat := by
      rw [UInt64.toNat_add]
      omega
    rw [if_pos (by omega), UInt64.add_comm, UInt64.add_sub_cancel]
  · split at h
    · rename_i hi hi'
      cases h
      have htag : (1280 + (index - 7)).toNat = 1273 + index.toNat := by
        rw [UInt64.toNat_add, UInt64.toNat_sub]
        omega
      rw [if_neg (by omega), if_pos (by omega), UInt64.add_comm 1280, UInt64.add_sub_cancel,
        UInt64.sub_add_cancel]
    · cases h

/-- **What is written in front of the fields stands for the index.** -/
theorem constructorFront_at (index : UInt64) (general : Bool) :
    IndexAt index (constructorFront index general) := by
  unfold constructorFront
  split
  · rename_i tag htag
    obtain ⟨info, hh⟩ := headBytes_spelled .tag tag .minimal
    exact .short hh rfl (Tag.index?_ofIndex? htag)
  · obtain ⟨info, hh⟩ := headBytes_spelled .tag Tag.general .minimal
    obtain ⟨info', hp⟩ := headBytes_spelled .array 2 .minimal
    obtain ⟨info'', hi⟩ := headBytes_spelled .unsigned index .minimal
    rw [List.append_assoc]
    exact .pair hh rfl rfl hp rfl rfl hi rfl rfl

theorem checkIndex_of_constructorIndex {p : Pieces} {index : UInt64} {general : Bool}
    (h : s.constructorIndex p = .ok (index, general)) : s.checkIndex index = .ok () := by
  unfold Shape.constructorIndex at h
  unfold Shape.checkIndex
  split at h
  · rename_i hs
    cases h
    simp [hs]
  · rename_i hs
    cases h
    simp [hs]
  · rename_i _ hg hi
    split
    · rename_i i hs
      exact absurd hs (hi i)
    · rename_i i hs
      exact absurd hs (hg i)
    · rfl
  · cases h

/-- **A constructor that is written is read back**, with the index that it is written with. -/
theorem Shape.ConstructorAs.read {p : Pieces} {u : Bytes} (h : s.ConstructorAs w p u)
    (he : ∀ z ∈ p.content.parts, Echoed w r g u.length z) (hroom : r.Roomy u.length)
    (hnull : s.NeverNull w p.content) :
    ∃ index general, s.constructorIndex p = .ok (index, general) ∧
      s.ConstructorAt r { name := s.name, content := p.content.map g, alternative := some index,
                          style := { indefinite := w.indefinite s.length p.style } } u := by
  cases h with
  | mk hi hu =>
    rename_i index general u
    have hle : u.length ≤ (constructorFront index general ++ u).length := by
      rw [List.length_append]
      omega
    have harray := hu.read (fun z hz => (he z hz).mono hle) (hroom.mono hle) hnull
    exact ⟨index, general, hi, .mk (constructorFront_at index general)
      (checkIndex_of_constructorIndex hi) harray⟩

/-- **The image of a constructor is written the same**, where it has the index that was written. -/
theorem Shape.ConstructorAs.again {p p' : Pieces} {u : Bytes} (h : s.ConstructorAs w p u)
    (he : ∀ z ∈ p.content.parts, Echoed w r g u.length z) (hc' : p'.content = p.content.map g)
    (hi : w.indefinite s.length p'.style = w.indefinite s.length p.style)
    (hindex : s.constructorIndex p' = s.constructorIndex p) : s.ConstructorAs w p' u := by
  cases h with
  | mk hindex' hu =>
    rename_i index general u
    have hle : u.length ≤ (constructorFront index general ++ u).length := by
      rw [List.length_append]
      omega
    rw [← hindex] at hindex'
    exact .mk hindex' (hu.again (fun z hz => (he z hz).mono hle) hc' hi)

end CborSchema
