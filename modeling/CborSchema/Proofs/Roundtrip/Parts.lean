import CborSchema.Proofs.Encode.Cuts
import CborSchema.Proofs.Roundtrip.Scalars

/-!
# Values written again

A content whose parts are replaced by parts that are written the same is written the same.

* `Content.map` -- a content with its parts replaced;
* `Echoed` -- a part that is written is read back as its image, which is written the same again;
* `Row.map` -- what lies in a row, each member replaced by its image;
* `alignFields_map`, `writtenFields_map` -- which fields of a tuple are written depends on which
  slots are empty, and on nothing in them;
* `ArrayAs.again`, `MapAs.again`, `ConstructorAs.again`, `UnionAs.again` -- **the image of a content
  is written the same.**
-/

namespace CborSchema

variable {s : Shape} {w : Writing} {r : Reading} {g : Value → Value}

/-! ## 1. Contents -/

namespace Content

variable {α β γ : Type}

/-- A content with each part replaced by its image. -/
def map (f : α → β) : Content α → Content β
  | .scalar x => .scalar x
  | .fields slots => .fields (slots.map (Option.map f))
  | .items vs => .items (vs.map f)
  | .entries es => .entries (es.map fun e => (f e.1, f e.2))
  | .variant v => .variant (f v)

theorem parts_map (f : α → β) (content : Content α) :
    (content.map f).parts = content.parts.map f := by
  cases content with
  | scalar x => rfl
  | fields slots => simp [map, parts, List.filterMap_map, List.map_filterMap]
  | items vs => rfl
  | entries es => simp [map, parts, List.flatMap_map, List.map_flatMap]
  | variant v => rfl

theorem map_map (f : α → β) (f' : β → γ) (content : Content α) :
    (content.map f).map f' = content.map fun a => f' (f a) := by
  cases content <;> simp [map, Function.comp_def]

/-- Only a scalar has a scalar as its image, and this is itself. -/
theorem eq_scalar_of_map {f : α → β} {content : Content α} {x : Scalar}
    (h : content.map f = .scalar x) : content = .scalar x := by
  cases content with
  | scalar y =>
    cases h
    rfl
  | _ => cases h

end Content

/-! ## 2. Parts -/

/-- Where this part is written in at most `k` bytes, it is read back as its image, and its image is
    written the same. -/
def Echoed (w : Writing) (r : Reading) (g : Value → Value) (k : Nat) (z : Value) : Prop :=
  ∀ t x, x.length ≤ k → w.PartAs t z x → r.PartAt t (g z) x ∧ w.PartAs t (g z) x

theorem Echoed.mono {j k : Nat} {z : Value} (h : Echoed w r g k z) (hjk : j ≤ k) :
    Echoed w r g j z := fun t x hx => h t x (Nat.le_trans hx hjk)

theorem Row.length_le {α : Type} {P : α → Bytes → Prop} {as : List α} {bytes : Bytes}
    (h : Row P as bytes) : Row (fun a x => x.length ≤ bytes.length ∧ P a x) as bytes := by
  induction h with
  | nil => exact .nil
  | cons hx _ ih =>
    refine .cons ⟨?_, hx⟩ (ih.mono fun a x h => ⟨?_, h.2⟩)
    · rw [List.length_append]
      omega
    · have hle := h.1
      rw [List.length_append]
      omega

/-- **What lies in a row, each member replaced by its image.** -/
theorem Row.map {α β : Type} {P : α → Bytes → Prop} {Q : β → Bytes → Prop} {f : α → β} {as : List α}
    {bytes : Bytes} (h : Row P as bytes)
    (hf : ∀ a ∈ as, ∀ x, x.length ≤ bytes.length → P a x → Q (f a) x) :
    Row Q (as.map f) bytes := by
  have himages : Row (fun a x => Q (f a) x) as bytes :=
    h.mem.length_le.mono fun a x hx => hf a hx.2.1 x hx.1 hx.2.2
  clear h hf
  induction himages with
  | nil => exact .nil
  | cons hx _ ih => exact .cons hx ih

/-! ## 3. Slots -/

/-- A field with the image of what is in its slot. -/
def imageSlot (g : Value → Value) (e : Field × Option Value) : Field × Option Value :=
  (e.1, e.2.map g)

theorem alignFields_map (fields : List Field) (slots : List (Option Value)) :
    alignFields fields (slots.map (Option.map g)) =
      (alignFields fields slots).map (imageSlot g) := by
  induction fields generalizing slots with
  | nil => rfl
  | cons f fs ih =>
    unfold alignFields
    split
    · exact congrArg (List.cons (f, none)) (ih slots)
    · cases slots with
      | nil => exact congrArg (List.cons (f, none)) (ih [])
      | cons slot slots => exact congrArg (List.cons (f, slot.map g)) (ih slots)

theorem omitted_imageSlot (e : Field × Option Value) : omitted (imageSlot g e) = omitted e := by
  simp [omitted, imageSlot]

theorem isWritten_imageSlot (e : Field × Option Value) :
    isWritten (imageSlot g e) = isWritten e := by
  simp [isWritten, imageSlot]

theorem writtenFields_map (entries : List (Field × Option Value)) :
    writtenFields (entries.map (imageSlot g)) = (writtenFields entries).map (imageSlot g) := by
  have homitted : omitted ∘ imageSlot g = omitted := funext omitted_imageSlot
  rw [writtenFields, writtenFields, ← List.map_reverse, List.dropWhile_map, homitted,
    List.map_reverse]

theorem countP_isWritten_map (entries : List (Field × Option Value)) :
    (entries.map (imageSlot g)).countP isWritten = entries.countP isWritten := by
  have hwritten : isWritten ∘ imageSlot g = isWritten := funext isWritten_imageSlot
  rw [List.countP_map, hwritten]

/-! ## 4. Elements and entries -/

theorem ElementAs.again {e : Field × Option Value} {x : Bytes} {k : Nat} (h : ElementAs w e x)
    (hx : x.length ≤ k) (he : ∀ z, e.2 = some z → Echoed w r g k z) :
    ElementAs w (imageSlot g e) x := by
  cases h with
  | literal hf => exact .literal hf
  | value hf hv => exact .value hf (he _ rfl _ _ hx hv).2
  | null hf => exact .null hf

theorem KeyedAs.again {e : Field × Option Value} {x : Bytes} {k : Nat} (h : KeyedAs w e x)
    (hx : x.length ≤ k) (he : ∀ z, e.2 = some z → Echoed w r g k z) :
    KeyedAs w (imageSlot g e) x := by
  cases h with
  | literal hf => exact .literal hf
  | value hf hv =>
    rw [List.length_append] at hx
    exact .value hf (he _ rfl _ _ (by omega) hv).2
  | absent hf => exact .absent hf

theorem EntryAs.again {key value : TypeExpr} {e : Value × Value} {x : Bytes} {k : Nat}
    (h : EntryAs w key value e x) (hx : x.length ≤ k) (hk : Echoed w r g k e.1)
    (hv : Echoed w r g k e.2) : EntryAs w key value (g e.1, g e.2) x := by
  obtain ⟨y, u, rfl, hy, hu⟩ := h
  rw [List.length_append] at hx
  exact ⟨y, u, rfl, (hk _ _ (by omega) hy).2, (hv _ _ (by omega) hu).2⟩

/-! ## 5. Items -/

/-- **A collection is written as a head, what is in it, and a break if it is indefinite.** -/
theorem collectionBytes_frame {m : Major} (hm : m.hasOpenForm = true) (indefinite : Bool) (n : Nat)
    (inner : Bytes) : ∃ (h : Head) (front : Bytes), h.Spelled front ∧ h.major = m ∧
      h.isIndefinite = indefinite ∧ collectionBytes m indefinite n inner =
        front ++ (inner ++ if indefinite then [breakByte] else []) := by
  rw [collectionBytes]
  cases indefinite with
  | true => exact ⟨_, _, indefiniteHead_spelled hm, rfl, rfl, List.append_assoc _ _ _⟩
  | false =>
    obtain ⟨info, hh⟩ := headBytes_spelled m (UInt64.ofNat n) .minimal
    exact ⟨_, _, hh, rfl, rfl, by simp⟩

theorem length_le_collectionBytes (m : Major) (indefinite : Bool) (n : Nat) (inner : Bytes) :
    inner.length ≤ (collectionBytes m indefinite n inner).length := by
  rw [collectionBytes]
  split
  · rw [List.length_append, List.length_append]
    omega
  · rw [List.length_append]
    omega

/-- **The image of a content is written the same**, by whatever style that asks for the framing. -/
theorem Shape.ArrayAs.again {p p' : Pieces} {u : Bytes} (h : s.ArrayAs w p u)
    (he : ∀ z ∈ p.content.parts, Echoed w r g u.length z) (hc' : p'.content = p.content.map g)
    (hi : w.indefinite s.length p'.style = w.indefinite s.length p.style) : s.ArrayAs w p' u := by
  cases h with
  | items hl hc hv =>
    rename_i item vs inner
    rw [hc] at he hc'
    have hrow : Row (w.PartAs item) (vs.map g) inner := hv.map fun z hz x hx hw =>
      (((he z hz).mono (length_le_collectionBytes _ _ _ _)) _ _ hx hw).2
    have hagain := Shape.ArrayAs.items (p := p') hl hc' hrow
    rwa [hi, List.length_map] at hagain
  | fields hl hc hn hrow =>
    rename_i fields slots inner
    rw [hc] at he hc'
    have hn' := hn.trans (arity_of_layout hl)
    have hrow' : Row (ElementAs w) ((writtenFields (alignFields fields slots)).map (imageSlot g))
        inner := hrow.map fun e hmem x hx hw => hw.again hx fun z hz =>
      (he z (mem_parts_of_aligned hn' (mem_of_mem_writtenFields hmem) hz)).mono
        (length_le_collectionBytes _ _ _ _)
    rw [← writtenFields_map, ← alignFields_map] at hrow'
    have hn'' : (slots.map (Option.map g)).length = s.arity := by rw [List.length_map, hn]
    have hagain := Shape.ArrayAs.fields (p := p') hl hc' hn'' hrow'
    rwa [hi, alignFields_map, writtenFields_map, List.length_map] at hagain

theorem Shape.MapAs.again {p p' : Pieces} {u : Bytes} (h : s.MapAs w p u)
    (he : ∀ z ∈ p.content.parts, Echoed w r g u.length z) (hc' : p'.content = p.content.map g)
    (hi : w.indefinite s.length p'.style = w.indefinite s.length p.style) : s.MapAs w p' u := by
  cases h with
  | entries hl hc hrow =>
    rename_i key value es inner
    rw [hc] at he hc'
    have hrow' : Row (EntryAs w key value) (es.map fun e => (g e.1, g e.2)) inner := by
      refine hrow.map fun e hmem x hx hw => ?_
      have hle := length_le_collectionBytes .map (w.indefinite s.length p.style) es.length inner
      have hk : e.1 ∈ (Content.entries es).parts := List.mem_flatMap.mpr ⟨e, hmem, by simp⟩
      have hv : e.2 ∈ (Content.entries es).parts := List.mem_flatMap.mpr ⟨e, hmem, by simp⟩
      exact hw.again hx ((he _ hk).mono hle) ((he _ hv).mono hle)
    have hagain := Shape.MapAs.entries (p := p') hl hc' hrow'
    rwa [hi, List.length_map] at hagain
  | fields hl hc hn hp hrow =>
    rename_i fields slots inner
    rw [hc] at he hc'
    have hn' := hn.trans (arity_of_layout hl)
    have hrow' : Row (KeyedAs w) ((alignFields fields slots).map (imageSlot g)) inner :=
      hrow.map fun e hmem x hx hw => hw.again hx fun z hz =>
        (he z (mem_parts_of_aligned hn' hmem hz)).mono (length_le_collectionBytes _ _ _ _)
    rw [← alignFields_map] at hrow'
    have hn'' : (slots.map (Option.map g)).length = s.arity := by rw [List.length_map, hn]
    have hp' : ∀ e ∈ alignFields fields (slots.map (Option.map g)),
        isWritten e = true ∨ e.1.presence = .optional := by
      rw [alignFields_map]
      intro e hmem
      obtain ⟨e', hmem', rfl⟩ := List.mem_map.mp hmem
      rw [isWritten_imageSlot]
      exact hp e' hmem'
    have hagain := Shape.MapAs.fields (p := p') hl hc' hn'' hp' hrow'
    rwa [hi, alignFields_map, countP_isWritten_map] at hagain

theorem Shape.UnionAs.again {p p' : Pieces} {u : Bytes} (h : s.UnionAs w p u)
    (he : ∀ z ∈ p.content.parts, Echoed w r g u.length z) (hc' : p'.content = p.content.map g) :
    s.UnionAs w p' u := by
  cases h with
  | mk hc hm hv =>
    rename_i z
    rw [hc] at he hc'
    have hz := (he z (by simp [Content.parts]) _ _ (Nat.le_refl _) hv).2
    have htype := hz.type
    rw [← htype] at hm hz
    exact .mk hc' hm hz

end CborSchema
