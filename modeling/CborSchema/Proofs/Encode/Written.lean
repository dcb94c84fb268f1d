import CborSchema.Encode.Value
import CborSchema.Proofs.Decode.Construct

/-!
# What a value is written as

Which bytes a value of a type is written as, one case for each way to write it.

* `Outcome.bind_eq_ok`, `concat_eq_ok` -- steps that answer, and what is written in a row;
* `Shape.ArrayAs`, `Shape.MapAs`, `Shape.ConstructorAs`, `Shape.UnionAs`, `Shape.KindAs` -- an item
  by the kind of the shape;
* `Codec.WriteAs` -- a value: the bytes it kept, or the tag and the item, with parts one level
  below; `Value.PiecesAs`, `pieces_content`, `pieces_parts` -- what it is taken into pieces as;
* `write_eq_ok` -- this is what is written, and nothing else is;
* `Writing.Extends`, `write_mono` -- with more nesting left, the same is written.
-/

namespace CborSchema

variable {s : Shape} {w : Writing}

/-! ## 1. Steps that answer -/

section runs

variable {ε α β : Type}

theorem Outcome.bind_eq_ok {x : Outcome ε α} {f : α → Outcome ε β} {b : β} :
    (x >>= f).result = .ok b ↔ ∃ a, x.result = .ok a ∧ (f a).result = .ok b := by
  rw [result_bind]
  constructor
  · exact Except.bind_eq_ok
  · rintro ⟨a, ha, hb⟩
    rw [ha]
    exact hb

theorem Outcome.map_eq_ok {x : Outcome ε α} {f : α → β} {b : β} :
    (x.map f).result = .ok b ↔ ∃ a, x.result = .ok a ∧ f a = b := by
  show x.result.map f = .ok b ↔ _
  cases x.result with
  | error e => simp [Except.map]
  | ok a => simp [Except.map]

/-- **What is written for the members of a list stands in a row.** -/
theorem concat_eq_ok {f : α → Outcome ε Bytes} {as : List α} {bytes : Bytes} :
    (Outcome.concat f as).result = .ok bytes ↔ Row (fun a x => (f a).result = .ok x) as bytes := by
  induction as generalizing bytes with
  | nil =>
    rw [Outcome.concat, Outcome.result_pure, Except.ok.injEq]
    constructor
    · rintro rfl
      exact .nil
    · intro h
      cases h
      rfl
  | cons a as ih =>
    rw [Outcome.concat, Outcome.bind_eq_ok]
    simp only [Outcome.map_eq_ok, ih]
    constructor
    · rintro ⟨x, hx, others, hs, rfl⟩
      exact .cons hx hs
    · intro h
      cases h with
      | cons hx hs => exact ⟨_, hx, _, hs, rfl⟩

end runs

/-! ## 2. Parts -/

/-- A part of a type is written as these bytes. -/
structure Writing.PartAs (w : Writing) (t : TypeExpr) (v : Value) (u : Bytes) : Prop where
  writes : (w.part t v).result = .ok u
  type : v.type = t

/-- Whatever part is written is of the type it is written as. -/
def Writing.Sound (w : Writing) : Prop := ∀ t v u, (w.part t v).result = .ok u → v.type = t

theorem Writing.Sound.partAs_iff (hw : w.Sound) {t : TypeExpr} {v : Value} {u : Bytes} :
    (w.part t v).result = .ok u ↔ w.PartAs t v u :=
  ⟨fun h => ⟨h, hw t v u h⟩, PartAs.writes⟩

/-! ## 3. Arrays -/

/-- One element of a tuple. -/
inductive ElementAs (w : Writing) : Field × Option Value → Bytes → Prop where
  | literal {f : Field} {l : Literal} {slot : Option Value} (hf : f.body = .literal l) :
      ElementAs w (f, slot) l.bytes
  | value {f : Field} {type : TypeExpr} {presence : Presence} {v : Value} {u : Bytes}
      (hf : f.body = .value type presence) (hv : w.PartAs type v u) : ElementAs w (f, some v) u
  | null {f : Field} {type : TypeExpr} (hf : f.body = .value type .nullable) :
      ElementAs w (f, none) nullBytes

theorem writeElement_eq_ok (hw : w.Sound) {name : String} {e : Field × Option Value} {u : Bytes} :
    (writeElement w name e).result = .ok u ↔ ElementAs w e u := by
  obtain ⟨f, slot⟩ := e
  constructor
  · intro h
    rw [writeElement] at h
    dsimp only at h
    split at h
    · rename_i l hf
      cases h
      exact .literal hf
    · rename_i hf
      exact .value hf ⟨h, hw _ _ _ h⟩
    · rename_i hf
      cases h
      exact .null hf
    · cases h
  · intro h
    rw [writeElement]
    cases h with
    | literal hf => simp only [hf, Outcome.result_pure]
    | value hf hv => simpa only [hf] using hv.writes
    | null hf => simp only [hf, Outcome.result_pure]

/-- An array of a shape. -/
inductive Shape.ArrayAs (s : Shape) (w : Writing) (p : Pieces) : Bytes → Prop where
  | items {item : TypeExpr} {vs : List Value} {inner : Bytes} (hl : s.layout = some (.items item))
      (hc : p.content = .items vs) (hv : Row (w.PartAs item) vs inner) :
      ArrayAs s w p (collectionBytes .array (w.indefinite s.length p.style) vs.length inner)
  | fields {fields : List Field} {slots : List (Option Value)} {inner : Bytes}
      (hl : s.layout = some (.fields fields)) (hc : p.content = .fields slots)
      (hn : slots.length = s.arity)
      (he : Row (ElementAs w) (writtenFields (alignFields fields slots)) inner) :
      ArrayAs s w p (collectionBytes .array (w.indefinite s.length p.style)
        (writtenFields (alignFields fields slots)).length inner)

theorem alignSlots_eq_ok {fields : List Field} {slots : List (Option Value)}
    {entries : List (Field × Option Value)} : s.alignSlots fields slots = .ok entries ↔
      slots.length = s.arity ∧ alignFields fields slots = entries := by
  rw [Shape.alignSlots]
  split
  · rename_i hn
    rw [Except.ok.injEq]
    exact ⟨fun h => ⟨hn, h⟩, fun h => h.2⟩
  · rename_i hn
    exact ⟨fun h => (by cases h), fun h => absurd h.1 hn⟩

theorem writeArray_eq_ok (hw : w.Sound) {p : Pieces} {u : Bytes} :
    (s.writeArray w p).result = .ok u ↔ s.ArrayAs w p u := by
  constructor
  · intro h
    rw [Shape.writeArray] at h
    dsimp only at h
    split at h
    · rename_i item vs hl hc
      obtain ⟨inner, hv, h⟩ := Outcome.bind_eq_ok.mp h
      cases h
      exact .items hl hc ((concat_eq_ok.mp hv).mono fun _ _ h => hw.partAs_iff.mp h)
    · rename_i fields slots hl hc
      obtain ⟨entries, hs, h⟩ := Outcome.bind_eq_ok.mp h
      obtain ⟨hn, rfl⟩ := alignSlots_eq_ok.mp hs
      obtain ⟨inner, he, h⟩ := Outcome.bind_eq_ok.mp h
      cases h
      exact .fields hl hc hn ((concat_eq_ok.mp he).mono fun _ _ h => (writeElement_eq_ok hw).mp h)
    · cases h
  · intro h
    rw [Shape.writeArray]
    cases h with
    | items hl hc hv =>
      simp only [hl, hc]
      have hv := concat_eq_ok.mpr (hv.mono fun _ _ h => h.writes)
      exact Outcome.bind_eq_ok.mpr ⟨_, hv, rfl⟩
    | fields hl hc hn he =>
      simp only [hl, hc]
      refine Outcome.bind_eq_ok.mpr ⟨_, alignSlots_eq_ok.mpr ⟨hn, rfl⟩, ?_⟩
      refine Outcome.bind_eq_ok.mpr ⟨_, ?_, rfl⟩
      exact concat_eq_ok.mpr (he.mono fun _ _ h => (writeElement_eq_ok hw).mpr h)

/-! ## 4. Maps -/

/-- One entry of a dynamic map. -/
def EntryAs (w : Writing) (key value : TypeExpr) (e : Value × Value) (x : Bytes) : Prop :=
  ∃ k u, x = k ++ u ∧ w.PartAs key e.1 k ∧ w.PartAs value e.2 u

theorem writeEntry_eq_ok (hw : w.Sound) {key value : TypeExpr} {e : Value × Value} {x : Bytes} :
    (writeEntry w key value e).result = .ok x ↔ EntryAs w key value e x := by
  rw [writeEntry]
  constructor
  · intro h
    obtain ⟨k, hk, h⟩ := Outcome.bind_eq_ok.mp h
    obtain ⟨u, hu, h⟩ := Outcome.bind_eq_ok.mp h
    cases h
    exact ⟨k, u, rfl, hw.partAs_iff.mp hk, hw.partAs_iff.mp hu⟩
  · rintro ⟨k, u, rfl, hk, hu⟩
    exact Outcome.bind_eq_ok.mpr ⟨k, hk.writes, Outcome.bind_eq_ok.mpr ⟨u, hu.writes, rfl⟩⟩

/-- One field of a map; one that is absent is written as nothing. -/
inductive KeyedAs (w : Writing) : Field × Option Value → Bytes → Prop where
  | literal {f : Field} {l : Literal} {slot : Option Value} (hf : f.body = .literal l) :
      KeyedAs w (f, slot) (f.key.bytes ++ l.bytes)
  | value {f : Field} {type : TypeExpr} {presence : Presence} {v : Value} {u : Bytes}
      (hf : f.body = .value type presence) (hv : w.PartAs type v u) :
      KeyedAs w (f, some v) (f.key.bytes ++ u)
  | absent {f : Field} (hf : f.isLiteral = false) : KeyedAs w (f, none) []

theorem writeKeyed_eq_ok (hw : w.Sound) {e : Field × Option Value} {u : Bytes} :
    (writeKeyed w e).result = .ok u ↔ KeyedAs w e u := by
  obtain ⟨f, slot⟩ := e
  constructor
  · intro h
    rw [writeKeyed] at h
    dsimp only at h
    split at h
    · rename_i l hf
      cases h
      exact .literal hf
    · rename_i hf
      obtain ⟨u, hu, h⟩ := Outcome.bind_eq_ok.mp h
      cases h
      exact .value hf (hw.partAs_iff.mp hu)
    · rename_i hf
      cases h
      exact .absent (by rw [Field.isLiteral, hf])
  · intro h
    rw [writeKeyed]
    cases h with
    | literal hf => simp only [hf, Outcome.result_pure]
    | value hf hv =>
      simp only [hf]
      exact Outcome.bind_eq_ok.mpr ⟨_, hv.writes, rfl⟩
    | absent hf =>
      rw [Field.isLiteral] at hf
      split at hf
      · rename_i hb
        simp only [hb, Outcome.result_pure]
      · cases hf

theorem checkSlots_eq_ok {name : String} {entries : List (Field × Option Value)} :
    checkSlots name entries = .ok () ↔
      ∀ e ∈ entries, isWritten e = true ∨ e.1.presence = .optional := by
  induction entries with
  | nil => simp [checkSlots]
  | cons e es ih =>
    rw [checkSlots, List.forall_mem_cons, ← ih]
    by_cases hw : isWritten e = true
    · simp [hw]
    · by_cases ho : e.1.presence = .optional
      · simp [hw, ho]
      · simp [hw, ho]

/-- A map of a shape. -/
inductive Shape.MapAs (s : Shape) (w : Writing) (p : Pieces) : Bytes → Prop where
  | entries {key value : TypeExpr} {es : List (Value × Value)} {inner : Bytes}
      (hl : s.layout = some (.entries key value)) (hc : p.content = .entries es)
      (he : Row (EntryAs w key value) es inner) :
      MapAs s w p (collectionBytes .map (w.indefinite s.length p.style) es.length inner)
  | fields {fields : List Field} {slots : List (Option Value)} {inner : Bytes}
      (hl : s.layout = some (.fields fields)) (hc : p.content = .fields slots)
      (hn : slots.length = s.arity)
      (hp : ∀ e ∈ alignFields fields slots, isWritten e = true ∨ e.1.presence = .optional)
      (he : Row (KeyedAs w) (alignFields fields slots) inner) :
      MapAs s w p (collectionBytes .map (w.indefinite s.length p.style)
        ((alignFields fields slots).countP isWritten) inner)

theorem writeMap_eq_ok (hw : w.Sound) {p : Pieces} {u : Bytes} :
    (s.writeMap w p).result = .ok u ↔ s.MapAs w p u := by
  constructor
  · intro h
    rw [Shape.writeMap] at h
    split at h
    · rename_i key value es hl hc
      obtain ⟨inner, he, h⟩ := Outcome.bind_eq_ok.mp h
      cases h
      exact .entries hl hc ((concat_eq_ok.mp he).mono fun _ _ h => (writeEntry_eq_ok hw).mp h)
    · rename_i fields slots hl hc
      obtain ⟨entries, hs, h⟩ := Outcome.bind_eq_ok.mp h
      obtain ⟨hn, rfl⟩ := alignSlots_eq_ok.mp hs
      obtain ⟨_, hp, h⟩ := Outcome.bind_eq_ok.mp h
      obtain ⟨inner, he, h⟩ := Outcome.bind_eq_ok.mp h
      cases h
      exact .fields hl hc hn (checkSlots_eq_ok.mp hp)
        ((concat_eq_ok.mp he).mono fun _ _ h => (writeKeyed_eq_ok hw).mp h)
    · cases h
  · intro h
    rw [Shape.writeMap]
    cases h with
    | entries hl hc he =>
      simp only [hl, hc]
      have he := concat_eq_ok.mpr (he.mono fun _ _ h => (writeEntry_eq_ok hw).mpr h)
      exact Outcome.bind_eq_ok.mpr ⟨_, he, rfl⟩
    | fields hl hc hn hp he =>
      simp only [hl, hc]
      have he := concat_eq_ok.mpr (he.mono fun _ _ h => (writeKeyed_eq_ok hw).mpr h)
      refine Outcome.bind_eq_ok.mpr ⟨_, alignSlots_eq_ok.mpr ⟨hn, rfl⟩, ?_⟩
      refine Outcome.bind_eq_ok.mpr ⟨(), checkSlots_eq_ok.mpr hp, ?_⟩
      exact Outcome.bind_eq_ok.mpr ⟨_, he, rfl⟩

/-! ## 5. Constructors and unions -/

/-- A constructor of a shape. -/
inductive Shape.ConstructorAs (s : Shape) (w : Writing) (p : Pieces) : Bytes → Prop where
  | mk {index : UInt64} {general : Bool} {u : Bytes}
      (hi : s.constructorIndex p = .ok (index, general)) (hu : s.ArrayAs w p u) :
      ConstructorAs s w p (constructorFront index general ++ u)

theorem writeConstructor_eq_ok (hw : w.Sound) {p : Pieces} {u : Bytes} :
    (s.writeConstructor w p).result = .ok u ↔ s.ConstructorAs w p u := by
  rw [Shape.writeConstructor]
  constructor
  · intro h
    obtain ⟨⟨index, general⟩, hi, h⟩ := Outcome.bind_eq_ok.mp h
    obtain ⟨fields, hf, h⟩ := Outcome.bind_eq_ok.mp h
    cases h
    exact .mk hi ((writeArray_eq_ok hw).mp hf)
  · intro h
    cases h with
    | mk hi hu =>
      refine Outcome.bind_eq_ok.mpr ⟨_, hi, ?_⟩
      exact Outcome.bind_eq_ok.mpr ⟨_, (writeArray_eq_ok hw).mpr hu, rfl⟩

/-- A union of a shape. -/
inductive Shape.UnionAs (s : Shape) (w : Writing) (p : Pieces) (u : Bytes) : Prop where
  | mk {v : Value} (hc : p.content = .variant v) (hm : v.type ∈ s.candidates)
      (hv : w.PartAs v.type v u) : UnionAs s w p u

theorem writeUnion_eq_ok {p : Pieces} {u : Bytes} :
    (s.writeUnion w p).result = .ok u ↔ s.UnionAs w p u := by
  rw [Shape.writeUnion]
  constructor
  · intro h
    split at h
    · rename_i v hc
      split at h
      · rename_i hm
        exact .mk hc (List.contains_iff_mem.mp hm) ⟨h, rfl⟩
      · cases h
    · cases h
  · rintro ⟨hc, hm, hv⟩
    simp only [hc, List.contains_iff_mem.mpr hm, if_true]
    exact hv.writes

/-! ## 6. Items -/

/-- An item by the kind of the shape. -/
inductive Shape.KindAs (s : Shape) (w : Writing) (p : Pieces) (u : Bytes) : Prop where
  | scalar {kind : Primitive} {x : Scalar} (hk : s.kind = .scalar kind) (hc : p.content = .scalar x)
      (hx : s.writeScalarOf p.style kind x = .ok u) : KindAs s w p u
  | list (hk : s.kind = .list) (h : s.ArrayAs w p u) : KindAs s w p u
  | map (hk : s.kind = .map) (h : s.MapAs w p u) : KindAs s w p u
  | constructor (hk : s.kind = .constructor) (h : s.ConstructorAs w p u) : KindAs s w p u
  | union (hk : s.kind = .union) (h : s.UnionAs w p u) : KindAs s w p u

theorem writeKind_eq_ok (hw : w.Sound) {p : Pieces} {u : Bytes} :
    (s.writeKind w p).result = .ok u ↔ s.KindAs w p u := by
  constructor
  · intro h
    rw [Shape.writeKind] at h
    split at h
    · rename_i kind hk
      have h : s.writeScalar kind p = .ok u := h
      rw [Shape.writeScalar] at h
      split at h
      · rename_i x hc
        exact .scalar hk hc h
      · cases h
    · rename_i hk
      exact .list hk ((writeArray_eq_ok hw).mp h)
    · rename_i hk
      exact .map hk ((writeMap_eq_ok hw).mp h)
    · rename_i hk
      exact .constructor hk ((writeConstructor_eq_ok hw).mp h)
    · rename_i hk
      exact .union hk (writeUnion_eq_ok.mp h)
  · intro h
    rw [Shape.writeKind]
    cases h with
    | scalar hk hc hx =>
      rw [hk]
      show s.writeScalar _ p = .ok u
      rw [Shape.writeScalar, hc]
      exact hx
    | list hk h =>
      rw [hk]
      exact (writeArray_eq_ok hw).mpr h
    | map hk h =>
      rw [hk]
      exact (writeMap_eq_ok hw).mpr h
    | constructor hk h =>
      rw [hk]
      exact (writeConstructor_eq_ok hw).mpr h
    | union hk h =>
      rw [hk]
      exact writeUnion_eq_ok.mpr h

theorem Shape.KindAs.mapAs {p : Pieces} {u : Bytes} (h : s.KindAs w p u) (hk : s.kind = .map) :
    s.MapAs w p u := by
  cases h with
  | map _ h => exact h
  | scalar hk' _ _ => cases hk'.symm.trans hk
  | list hk' _ => cases hk'.symm.trans hk
  | constructor hk' _ => cases hk'.symm.trans hk
  | union hk' _ => cases hk'.symm.trans hk

theorem Shape.KindAs.constructorAs {p : Pieces} {u : Bytes} (h : s.KindAs w p u)
    (hk : s.kind = .constructor) : s.ConstructorAs w p u := by
  cases h with
  | constructor _ h => exact h
  | scalar hk' _ _ => cases hk'.symm.trans hk
  | list hk' _ => cases hk'.symm.trans hk
  | map hk' _ => cases hk'.symm.trans hk
  | union hk' _ => cases hk'.symm.trans hk

/-! ## 7. Values -/

/-- What the writers of the kinds share one level below. -/
def Codec.writing (c : Codec) (o : EncodeOptions) (depth : Nat) : Writing := ⟨o, c.write o depth⟩

/-- A value of a type: the bytes it kept, or the tag and the item, with its parts one level
    below. -/
inductive Codec.WriteAs (c : Codec) (o : EncodeOptions) (depth : Nat) (t : TypeExpr) (v : Value) :
    Bytes → Prop where
  | replayed {s : Shape} {u : Bytes} (hs : c.resolve t = .ok s) (hp : s.preserveRaw = true)
      (ht : v.type = t) (hr : v.notes.raw = some u) : WriteAs c o depth t v u
  | taken {s : Shape} {p : Pieces} {u : Bytes} (hs : c.resolve t = .ok s)
      (hr : s.preserveRaw = true → v.notes.raw = none) (hp : c.catalog.pieces t v = .ok p)
      (hk : s.KindAs (c.writing o depth) p u) : WriteAs c o depth t v (s.tagBefore p.style ++ u)

/-- The pieces of a value of a type: the style that it asks for, and its content, a scalar in the
    form in which it is written. -/
structure Value.PiecesAs (v : Value) (t : TypeExpr) (p : Pieces) : Prop where
  type : v.type = t
  style : p.style = v.notes.emit
  content : p.content = v.content ∨
    ∃ x y, v.content = .scalar x ∧ x.forWriting = .ok y ∧ p.content = .scalar y

section pieces

variable {catalog : Catalog} {t : TypeExpr} {v : Value} {p : Pieces}

theorem pieces_as (h : catalog.pieces t v = .ok p) : v.PiecesAs t p := by
  rw [Catalog.pieces] at h
  split at h
  · cases h
  · rename_i ht
    split at h
    · rename_i x hx
      obtain ⟨y, hy, h⟩ := Except.bind_eq_ok h
      cases h
      exact ⟨not_not.mp ht, rfl, .inr ⟨x, y, hx, hy, rfl⟩⟩
    · cases h
      exact ⟨not_not.mp ht, rfl, .inl rfl⟩

theorem pieces_type (h : catalog.pieces t v = .ok p) : v.type = t := (pieces_as h).type

/-- The pieces of a value have its content, unless it is a scalar. -/
theorem pieces_content (h : catalog.pieces t v = .ok p) (hv : ∀ x, v.content ≠ .scalar x) :
    p.content = v.content := by
  rcases (pieces_as h).content with hc | ⟨x, _, hx, _, _⟩
  · exact hc
  · exact absurd hx (hv x)

/-- The pieces of a value have its parts. -/
theorem pieces_parts (h : catalog.pieces t v = .ok p) : p.content.parts = v.content.parts := by
  rcases (pieces_as h).content with hc | ⟨_, _, hx, _, hy⟩
  · rw [hc]
  · rw [hx, hy]
    rfl

end pieces

namespace Codec

variable {c : Codec} {o : EncodeOptions} {depth : Nat} {t : TypeExpr} {v : Value}

theorem reach_bind_eq_ok {f : Shape → Outcome EncodeError Bytes} {b : Bytes} :
    (c.reach EncodeError.config t >>= f).result = .ok b ↔
      ∃ s, c.resolve t = .ok s ∧ (f s).result = .ok b := by
  rw [Outcome.bind_eq_ok]
  refine exists_congr fun s => and_congr_left fun _ => ?_
  show (c.resolve t).mapError _ = .ok s ↔ _
  cases c.resolve t with
  | error e => simp [Except.mapError]
  | ok s' => simp [Except.mapError]

/-- **Whatever is written is of the type it is written as.** -/
theorem writing_sound (c : Codec) (o : EncodeOptions) (depth : Nat) :
    (c.writing o depth).Sound := by
  intro t v u h
  cases depth with
  | zero =>
    obtain ⟨_, _, h⟩ := reach_bind_eq_ok.mp h
    cases h
  | succ depth =>
    obtain ⟨s, _, h⟩ := reach_bind_eq_ok.mp h
    split at h
    · rename_i hk
      rw [Value.kept] at hk
      split at hk
      · rename_i ht
        exact ht
      · cases hk
    · obtain ⟨p, hp, _⟩ := Outcome.bind_eq_ok.mp h
      exact pieces_type hp

theorem writePieces_eq_ok {w : Writing} (hw : w.Sound) {s : Shape} {p : Pieces} {b : Bytes} :
    (s.writePieces w p).result = .ok b ↔ ∃ u, s.KindAs w p u ∧ s.tagBefore p.style ++ u = b := by
  rw [Shape.writePieces, Outcome.bind_eq_ok]
  refine exists_congr fun u => and_congr (writeKind_eq_ok hw) ?_
  rw [Outcome.result_pure, Except.ok.injEq]

/-- A value that is not replayed is written as its pieces. -/
theorem write_of_pieces {s : Shape} {p : Pieces} (hs : c.resolve t = .ok s)
    (hr : s.preserveRaw = true → v.notes.raw = none) (hp : c.catalog.pieces t v = .ok p) :
    (c.write o (depth + 1) t v).result = (s.writePieces (c.writing o depth) p).result := by
  rw [write, Outcome.result_bind, reach, hs]
  show Outcome.result _ = _
  split
  · rename_i hraw hkept
    rw [Value.kept, if_pos (pieces_type hp), hr hraw] at hkept
    cases hkept
  · rw [Outcome.result_bind, Outcome.ofExcept, hp]
    rfl

theorem write_of_pieces_eq_ok {s : Shape} {p : Pieces} (hs : c.resolve t = .ok s)
    (hr : s.preserveRaw = true → v.notes.raw = none) (hp : c.catalog.pieces t v = .ok p)
    {b : Bytes} : (c.write o (depth + 1) t v).result = .ok b ↔
      ∃ u, s.KindAs (c.writing o depth) p u ∧ s.tagBefore p.style ++ u = b := by
  rw [write_of_pieces hs hr hp, writePieces_eq_ok (c.writing_sound o depth)]

/-- **A value is written as the bytes it kept, or as its tag and its item.** -/
theorem write_eq_ok {b : Bytes} :
    (c.write o (depth + 1) t v).result = .ok b ↔ c.WriteAs o depth t v b := by
  have hw := c.writing_sound o depth
  rw [write, reach_bind_eq_ok]
  constructor
  · rintro ⟨s, hs, h⟩
    split at h
    · rename_i hp hk
      cases h
      rw [Value.kept] at hk
      split at hk
      · rename_i ht
        exact .replayed hs hp ht hk
      · cases hk
    · rename_i hno
      obtain ⟨p, hp, h⟩ := Outcome.bind_eq_ok.mp h
      obtain ⟨u, hk, rfl⟩ := (writePieces_eq_ok hw).mp h
      refine .taken hs (fun hraw => ?_) hp hk
      rw [Option.eq_none_iff_forall_ne_some]
      intro raw hr
      exact hno raw hraw (by rw [Value.kept, if_pos (pieces_type hp), hr])
  · intro h
    cases h with
    | replayed hs hp ht hr =>
      refine ⟨_, hs, ?_⟩
      rw [hp, Value.kept, if_pos ht, hr]
      rfl
    | taken hs hr hp hk =>
      refine ⟨_, hs, ?_⟩
      have hrun := Outcome.bind_eq_ok.mpr
        ⟨_, show (Outcome.ofExcept (c.catalog.pieces t v)).result = .ok _ from hp,
          (writePieces_eq_ok hw).mpr ⟨_, hk, rfl⟩⟩
      split
      · rename_i hraw hkept
        rw [Value.kept, if_pos (pieces_type hp), hr hraw] at hkept
        cases hkept
      · exact hrun

end Codec

/-! ## 8. More nesting -/

/-- Whatever the one writes of a part the other writes as well. -/
structure Writing.Extends (w' w : Writing) : Prop where
  options : w'.options = w.options
  part : ∀ t v u, w.PartAs t v u → w'.PartAs t v u

section nesting

variable {w' : Writing} {p : Pieces} {u : Bytes}

theorem Writing.Extends.indefinite (hw : w'.Extends w) : w'.indefinite = w.indefinite := by
  funext framing style
  unfold Writing.indefinite
  rw [hw.options]

theorem ElementAs.extend (hw : w'.Extends w) {e : Field × Option Value} (h : ElementAs w e u) :
    ElementAs w' e u := by
  cases h with
  | literal hf => exact .literal hf
  | value hf hv => exact .value hf (hw.part _ _ _ hv)
  | null hf => exact .null hf

theorem KeyedAs.extend (hw : w'.Extends w) {e : Field × Option Value} (h : KeyedAs w e u) :
    KeyedAs w' e u := by
  cases h with
  | literal hf => exact .literal hf
  | value hf hv => exact .value hf (hw.part _ _ _ hv)
  | absent hf => exact .absent hf

theorem EntryAs.extend (hw : w'.Extends w) {key value : TypeExpr} {e : Value × Value}
    (h : EntryAs w key value e u) : EntryAs w' key value e u := by
  obtain ⟨k, x, rfl, hk, hx⟩ := h
  exact ⟨k, x, rfl, hw.part _ _ _ hk, hw.part _ _ _ hx⟩

theorem Shape.ArrayAs.extend (hw : w'.Extends w) (h : s.ArrayAs w p u) : s.ArrayAs w' p u := by
  cases h with
  | items hl hc hv =>
    rw [← hw.indefinite]
    exact .items hl hc (hv.mono fun _ _ h => hw.part _ _ _ h)
  | fields hl hc hn he =>
    rw [← hw.indefinite]
    exact .fields hl hc hn (he.mono fun _ _ h => h.extend hw)

theorem Shape.MapAs.extend (hw : w'.Extends w) (h : s.MapAs w p u) : s.MapAs w' p u := by
  cases h with
  | entries hl hc he =>
    rw [← hw.indefinite]
    exact .entries hl hc (he.mono fun _ _ h => h.extend hw)
  | fields hl hc hn hp he =>
    rw [← hw.indefinite]
    exact .fields hl hc hn hp (he.mono fun _ _ h => h.extend hw)

theorem Shape.KindAs.extend (hw : w'.Extends w) (h : s.KindAs w p u) : s.KindAs w' p u := by
  cases h with
  | scalar hk hc hx => exact .scalar hk hc hx
  | list hk h => exact .list hk (h.extend hw)
  | map hk h => exact .map hk (h.extend hw)
  | constructor hk h =>
    cases h with
    | mk hi hu => exact .constructor hk (.mk hi (hu.extend hw))
  | union hk h =>
    cases h with
    | mk hc hm hv => exact .union hk (.mk hc hm (hw.part _ _ _ hv))

end nesting

/-- **What is written with some nesting left is written with more**, by induction on what is
    left. -/
theorem Codec.write_mono {c : Codec} {o : EncodeOptions} {m n : Nat} {t : TypeExpr} {v : Value}
    {b : Bytes} (hle : m ≤ n) (h : (c.write o m t v).result = .ok b) :
    (c.write o n t v).result = .ok b := by
  induction m generalizing n t v b with
  | zero =>
    obtain ⟨_, _, h⟩ := reach_bind_eq_ok.mp h
    cases h
  | succ m ih =>
    obtain ⟨n, rfl⟩ : ∃ k, n = k + 1 := ⟨n - 1, by omega⟩
    have hw : (c.writing o n).Extends (c.writing o m) :=
      ⟨rfl, fun t v u hv => ⟨ih (by omega) hv.writes, hv.type⟩⟩
    rw [write_eq_ok] at h ⊢
    cases h with
    | replayed hs hp ht hr => exact .replayed hs hp ht hr
    | taken hs hr hp hk => exact .taken hs hr hp (hk.extend hw)

end CborSchema
