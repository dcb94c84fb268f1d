import CborSchema.Proofs.Raw.Places
import CborSchema.Proofs.Roundtrip.Items

/-!
# Values built again

A value that a type can hold is built again from the parts that were written for it.

* `Catalog.Same` -- values that are equal up to the bytes they kept and the style of the wire;
* `Catalog.Own` -- the values that a type can hold;
* `contentOf_rebuilt` -- what a declared type asks for is the content that was written;
* `orderEntries_of_sorted` -- entries in order stay as they are;
* `Own.rebuilt` -- **the value that is built is the one that was written**, with the images of the
  values in it.
-/

namespace CborSchema

variable {c : Catalog} {s : Shape} {t : TypeExpr} {w : Writing} {g : Value → Value}

/-! ## 1. The same values -/

namespace Catalog

/-- The index of a constructor: the one it carries, or else the one that its type fixes. -/
def indexOf (c : Catalog) (v : Value) : Option UInt64 :=
  v.notes.alternative.or ((c.resolve v.type).toOption.bind fun s => s.writtenIndex none)

/-- A value without what is in its parts: its type, its content, and its index. -/
def top (c : Catalog) (v : Value) : TypeExpr × Content Unit × Option UInt64 :=
  (v.type, v.content.map fun _ => (), c.indexOf v)

/-- The same value up to the bytes kept and the style of the wire: at every path stands a value of
    the same type, with the same scalar or as many parts, the same slots empty, and the same
    index. -/
def Same (c : Catalog) (v v' : Value) : Prop :=
  ∀ path, (v.at? path).map c.top = (v'.at? path).map c.top

theorem Same.refl (v : Value) : c.Same v v := fun _ => rfl

theorem Same.symm {v v' : Value} (h : c.Same v v') : c.Same v' v := fun path => (h path).symm

theorem Same.top_eq {v v' : Value} (h : c.Same v v') : c.top v = c.top v' := Option.some.inj (h [])

theorem Same.type_eq {v v' : Value} (h : c.Same v v') : v'.type = v.type :=
  (congrArg Prod.fst h.top_eq).symm

theorem Same.scalar {v v' : Value} (h : c.Same v v') {x : Scalar} (hx : v.content = .scalar x) :
    v'.content = .scalar x := by
  have hmap : (v.content.map fun _ => ()) = v'.content.map fun _ => () :=
    congrArg (fun p => p.2.1) h.top_eq
  rw [hx] at hmap
  exact Content.eq_scalar_of_map hmap.symm

/-- **Values of one type and index whose parts are the same are the same.** -/
theorem same_of_parts {v v' : Value} (htype : v'.type = v.type)
    (hindex : c.indexOf v' = c.indexOf v) (hcontent : v'.content = v.content.map g)
    (hg : ∀ z ∈ v.content.parts, c.Same z (g z)) : c.Same v v' := by
  intro path
  cases path with
  | nil =>
    have htop : c.top v = c.top v' := by
      rw [top, top, htype, hindex, hcontent, Content.map_map]
    exact congrArg some htop
  | cons i path =>
    rw [Value.at?, Value.at?, hcontent, Content.parts_map, List.getElem?_map]
    cases hi : v.content.parts[i]? with
    | none => rfl
    | some z => exact hg z (List.mem_of_getElem? hi) path

/-- The order of scalar keys looks at nothing else. -/
theorem compareScalars_same {a a' b b' : Value} (ha : c.Same a a') (hb : c.Same b b') :
    Value.compareScalars a b = Value.compareScalars a' b' := by
  unfold Value.compareScalars
  split
  · rename_i x y hx hy
    rw [ha.scalar hx, hb.scalar hy]
  · rename_i hno
    split
    · rename_i x y hx hy
      exact absurd (hb.symm.scalar hy) (hno x y (ha.symm.scalar hx))
    · rfl

end Catalog

/-! ## 2. Values that a type can hold -/

/-- The form of the scalars of a type that keeps nothing but one. -/
def TypeExpr.form? : TypeExpr → Option ScalarForm
  | .bool => some .bool
  | .uint64 => some .uint64
  | .uint32 => some .uint32
  | .int64 => some .int64
  | .text => some .text
  | .bytes => some .bytes
  | .null => some .null
  | _ => none

/-- The values that a type can hold, without bytes kept. A scalar is of the form it is taken in, the
    entries of an ordered map stand in the order of their keys, and only a type that keeps the style
    it is read with asks for one. A value of a declared type carries no index but the one it is
    written with. -/
inductive Catalog.Own (c : Catalog) : Value → Prop where
  | scalar {t : TypeExpr} {form : ScalarForm} {x : Scalar} (ht : t.form? = some form)
      (hx : form.Holds x) : Own c (.ofScalar t x)
  | embedded (payload : Bytes) : Own c (.ofEmbedded payload none)
  | list (item : TypeExpr) (vs : List Value) : Own c (.ofItems item vs)
  | map {key value : TypeExpr} {es : List (Value × Value)}
      (he : es.Pairwise fun e e' => c.compareKeys key e'.1 e.1 = .gt) :
      Own c (.node (.map key value) (.entries es) {})
  | framedList (item : TypeExpr) (vs : List Value) (indefinite : Bool) :
      Own c (.framedList item vs indefinite)
  | taggedSet (item : TypeExpr) (vs : List Value) (tagged : Bool) :
      Own c (.taggedSet item vs tagged)
  | anyConstructor (field : TypeExpr) (index : UInt64) (vs : List Value) :
      Own c (.anyConstructor field index vs)
  | named {name : String} {s : Shape} {content : Content Value} {notes : Notes}
      (hs : c.resolve (.named name) = .ok s) (hr : notes.raw = none)
      (hx : ∀ kind x, s.kind = .scalar kind → content = .scalar x →
        (s.scalarForm (c.declared name).conversion).Holds x)
      (he : notes.emit ≠ none → (c.declared name).conversion.keepsStyle = true)
      (hi : notes.alternative = none ∨ s.writtenIndex notes.alternative = notes.alternative) :
      Own c (.node (.named name) content notes)

theorem Catalog.Own.raw {v : Value} (h : c.Own v) : v.notes.raw = none := by
  cases h with
  | named hs hr hx he hi => exact hr
  | _ => rfl

/-- The index that a value is written with is its index. -/
theorem Catalog.Own.indexOf_eq {v v' : Value} (h : c.Own v) (hs : c.resolve v.type = .ok s)
    (htype : v'.type = v.type) (hv' : v'.notes.alternative = s.writtenIndex v.notes.alternative) :
    c.indexOf v' = c.indexOf v := by
  have hindex : v.notes.alternative = none ∨
      s.writtenIndex v.notes.alternative = v.notes.alternative := by
    cases h with
    | anyConstructor field index vs =>
      cases hs
      exact .inr rfl
    | named hs' hr hx he hi =>
      have hs : c.resolve (.named _) = .ok s := hs
      rw [hs', Except.ok.injEq] at hs
      subst hs
      exact hi
    | _ => exact .inl rfl
  have hfixed : (c.resolve v.type).toOption.bind (fun s => s.writtenIndex none) =
      s.writtenIndex none := by
    rw [hs]
    rfl
  rw [indexOf, indexOf, htype, hfixed, hv']
  rcases hindex with hnone | hsame
  · rw [hnone, Option.or_self, Option.none_or]
  · rw [hsame]

/-! ## 3. Pieces -/

/-- What a value hands to the writers, its scalar as it is. -/
def Value.asPieces (v : Value) : Pieces :=
  { content := v.content, alternative := v.notes.alternative, style := v.notes.emit }

theorem pieces_of_forWriting {v : Value} (h : ∀ x, v.content = .scalar x → x.forWriting = .ok x) :
    c.pieces v.type v = .ok v.asPieces := by
  rw [Catalog.pieces, if_neg (not_not.mpr rfl)]
  split
  · rename_i x hx
    rw [h x hx, Value.asPieces, hx]
    rfl
  · rfl

/-- A scalar is written by a scalar kind alone. -/
theorem Shape.KindAs.kind_of_scalar {p : Pieces} {u : Bytes} (h : s.KindAs w p u) {x : Scalar}
    (hx : p.content = .scalar x) : ∃ kind, s.kind = .scalar kind := by
  have harray : ∀ u, ¬ s.ArrayAs w p u := by
    intro u h
    cases h with
    | items hl hc hv => rw [hc] at hx; cases hx
    | fields hl hc hn he => rw [hc] at hx; cases hx
  cases h with
  | scalar hk hc hy => exact ⟨_, hk⟩
  | list hk h => exact absurd h (harray u)
  | map hk h =>
    cases h with
    | entries hl hc he => rw [hc] at hx; cases hx
    | fields hl hc hn hp he => rw [hc] at hx; cases hx
  | constructor hk h =>
    cases h with
    | mk hi h => exact absurd h (harray _)
  | union hk h =>
    cases h with
    | mk hc hm hv => rw [hc] at hx; cases hx

/-- A scalar that a type can hold is written as it is. -/
theorem Catalog.Own.forWriting {v : Value} (h : c.Own v) (hs : c.resolve v.type = .ok s)
    {p : Pieces} (hp : c.pieces v.type v = .ok p) {u : Bytes} (hk : s.KindAs w p u) {x : Scalar}
    (hx : v.content = .scalar x) : x.forWriting = .ok x := by
  cases h with
  | scalar ht hy =>
    cases hx
    exact forWriting_of_holds hy
  | embedded payload =>
    cases hx
    rfl
  | named hs' hr hy he hi =>
    have hs : c.resolve (.named _) = .ok s := hs
    rw [hs', Except.ok.injEq] at hs
    subst hs
    have hx : _ = Content.scalar x := hx
    rw [Catalog.pieces, if_neg (not_not.mpr rfl)] at hp
    split at hp
    · rename_i y hy'
      obtain ⟨z, _, hp⟩ := Except.bind_eq_ok hp
      cases hp
      obtain ⟨kind, hkind⟩ := hk.kind_of_scalar rfl
      exact forWriting_of_holds (hy kind x hkind hx)
    · rename_i hno
      exact absurd hx (hno x)
  | _ => cases hx

/-! ## 4. The parts that a type asks for -/

/-- A slot is filled as its field allows. -/
def FitsField (e : Field × Option Value) : Prop :=
  ∀ type presence, e.1.body = .value type presence → Take.Fits ⟨type, presence != .required⟩ e.2

theorem fitsField_omitted {e : Field × Option Value} (h : omitted e = true) : FitsField e := by
  intro type presence hb
  obtain ⟨hslot, hpresence, _⟩ := omitted_eq_true h
  rw [Field.presence, hb] at hpresence
  rw [hslot]
  show (presence != .required) = true
  rw [show presence = .optional from hpresence]
  rfl

theorem ElementAs.fitsField {e : Field × Option Value} {x : Bytes} (h : ElementAs w e x) :
    FitsField e := by
  intro type presence hb
  cases h with
  | literal hf =>
    dsimp only at hb
    rw [hf] at hb
    cases hb
  | value hf hv =>
    dsimp only at hb
    rw [hf] at hb
    cases hb
    exact hv.type
  | null hf =>
    dsimp only at hb
    rw [hf] at hb
    cases hb
    rfl

theorem KeyedAs.fitsField {e : Field × Option Value} {x : Bytes} (h : KeyedAs w e x)
    (hp : isWritten e = true ∨ e.1.presence = .optional) : FitsField e := by
  intro type presence hb
  cases h with
  | literal hf =>
    dsimp only at hb
    rw [hf] at hb
    cases hb
  | value hf hv =>
    dsimp only at hb
    rw [hf] at hb
    cases hb
    exact hv.type
  | absent hf =>
    rcases hp with hp | hp
    · simp [isWritten, hf] at hp
    · rw [Field.presence, hb] at hp
      show (presence != .required) = true
      rw [show presence = .optional from hp]
      rfl

/-- **Slots that are filled as the fields allow are taken.** -/
theorem takes_fit {entries : List (Field × Option Value)} (hl : s.fields = entries.map Prod.fst)
    (h : ∀ e ∈ entries, FitsField e) : List.Forall₂ Take.Fits s.takes (freeSlots entries) := by
  rw [Shape.takes, hl]
  clear hl
  induction entries with
  | nil => exact .nil
  | cons e entries ih =>
    obtain ⟨he, hentries⟩ := List.forall_mem_cons.mp h
    obtain ⟨f, slot⟩ := e
    cases hb : f.body with
    | literal l =>
      rw [freeSlots_literal hb, List.map_cons, List.filterMap_cons_none (by rw [hb])]
      exact ih hentries
    | value type presence =>
      rw [freeSlots_value hb, List.map_cons, List.filterMap_cons_some (by rw [hb])]
      exact .cons (he type presence hb) (ih hentries)

/-- What an array holds is what its layout asks for. -/
theorem Shape.ArrayAs.holds {p : Pieces} {u : Bytes} (h : s.ArrayAs w p u) :
    (∃ item vs, s.layout = some (.items item) ∧ p.content = .items vs ∧ ∀ z ∈ vs, z.type = item) ∨
    ∃ fields slots, s.layout = some (.fields fields) ∧ p.content = .fields slots ∧
      List.Forall₂ Take.Fits s.takes slots := by
  cases h with
  | items hl hc hv =>
    refine .inl ⟨_, _, hl, hc, fun z hz => ?_⟩
    obtain ⟨x, hx⟩ := hv.exists_of_mem hz
    exact hx.type
  | fields hl hc hn he =>
    rename_i fields slots inner
    refine .inr ⟨fields, slots, hl, hc, ?_⟩
    obtain ⟨tail, hentries, htail⟩ := writtenFields_append (alignFields fields slots)
    have hfields : s.fields = (alignFields fields slots).map Prod.fst := by
      rw [fields_of_layout hl, alignFields_fields]
    have hfits : ∀ e ∈ alignFields fields slots, FitsField e := by
      intro e hmem
      rw [hentries] at hmem
      rcases List.mem_append.mp hmem with hmem | hmem
      · obtain ⟨x, hx⟩ := he.exists_of_mem hmem
        exact hx.fitsField
      · exact fitsField_omitted (htail e hmem)
    have htakes := takes_fit hfields hfits
    rwa [freeSlots_alignFields (hn.trans (arity_of_layout hl))] at htakes

/-- What a map holds is what its layout asks for. -/
theorem Shape.MapAs.holds {p : Pieces} {u : Bytes} (h : s.MapAs w p u) :
    (∃ key value es, s.layout = some (.entries key value) ∧ p.content = .entries es ∧
      ∀ e ∈ es, e.1.type = key ∧ e.2.type = value) ∨
    ∃ fields slots, s.layout = some (.fields fields) ∧ p.content = .fields slots ∧
      List.Forall₂ Take.Fits s.takes slots := by
  cases h with
  | entries hl hc he =>
    refine .inl ⟨_, _, _, hl, hc, fun e hmem => ?_⟩
    obtain ⟨_, y, u, _, hk, hv⟩ := he.exists_of_mem hmem
    exact ⟨hk.type, hv.type⟩
  | fields hl hc hn hp he =>
    rename_i fields slots inner
    refine .inr ⟨fields, slots, hl, hc, ?_⟩
    have hfields : s.fields = (alignFields fields slots).map Prod.fst := by
      rw [fields_of_layout hl, alignFields_fields]
    have hfits : ∀ e ∈ alignFields fields slots, FitsField e := by
      intro e hmem
      obtain ⟨x, hx⟩ := he.exists_of_mem hmem
      exact hx.fitsField (hp e hmem)
    have htakes := takes_fit hfields hfits
    rwa [freeSlots_alignFields (hn.trans (arity_of_layout hl))] at htakes

theorem fits_map (hg : ∀ z, (g z).type = z.type) {takes : List Take} {slots : List (Option Value)}
    (h : List.Forall₂ Take.Fits takes slots) :
    List.Forall₂ Take.Fits takes (slots.map (Option.map g)) := by
  induction h with
  | nil => exact .nil
  | cons hfit _ ih =>
    rename_i take slot takes slots _
    refine .cons ?_ ih
    cases slot with
    | none => exact hfit
    | some z => exact (hg z).trans hfit

/-! ## 5. Contents -/

theorem items_rebuilt (hg : ∀ z, (g z).type = z.type) {item : TypeExpr} {vs : List Value}
    (hv : ∀ z ∈ vs, z.type = item) {parts : Parts} (hp : parts.content = .items (vs.map g)) :
    c.items item parts = .ok (vs.map g) := by
  refine items_eq_ok.mpr ⟨hp, fun y hy => ?_⟩
  obtain ⟨z, hz, rfl⟩ := List.mem_map.mp hy
  rw [hg z, hv z hz]

theorem entries_rebuilt (hg : ∀ z, (g z).type = z.type) {key value : TypeExpr}
    {es : List (Value × Value)} (he : ∀ e ∈ es, e.1.type = key ∧ e.2.type = value) {parts : Parts}
    (hp : parts.content = .entries (es.map fun e => (g e.1, g e.2))) :
    c.entries key value parts = .ok (es.map fun e => (g e.1, g e.2)) := by
  refine entries_eq_ok.mpr ⟨hp, fun e' hmem' => ?_⟩
  obtain ⟨e, hmem, rfl⟩ := List.mem_map.mp hmem'
  rw [hg e.1, hg e.2]
  exact he e hmem

/-- A conversion that asks for what the shape has, and builds a value of it. -/
structure Conversion.Default (conversion : Conversion) : Prop where
  asks : conversion.asks = .byShape
  reject : conversion.reject = none

section contents

variable {conversion : Conversion} {parts : Parts}

theorem contentOf_fields (hg : ∀ z, (g z).type = z.type) {fields : List Field}
    {slots : List (Option Value)} (hl : s.layout = some (.fields fields)) (hk : s.kind ≠ .union)
    (hfit : List.Forall₂ Take.Fits s.takes slots)
    (hp : parts.content = .fields (slots.map (Option.map g))) :
    c.contentOf s conversion parts s.asks = .ok (.fields (slots.map (Option.map g)), 0) := by
  have htakes : c.takeSlots parts.name s.takes (slots.map (Option.map g)) =
      .ok (slots.map (Option.map g), 0) :=
    takeSlots_eq_ok.mpr ⟨fits_map hg hfit, [], (List.append_nil _).symm, rfl⟩
  rw [Shape.asks, if_neg hk, hl]
  show (c.fields s.takes parts >>= _) = _
  rw [Catalog.fields, hp]
  dsimp only
  rw [htakes]
  rfl

theorem contentOf_array (hg : ∀ z, (g z).type = z.type) {p : Pieces} {u : Bytes}
    (h : s.ArrayAs w p u) (hk : s.kind ≠ .union) (hp : parts.content = p.content.wire.map g) :
    c.contentOf s conversion parts s.asks = .ok (p.content.map g, 0) := by
  rw [h.wire] at hp
  rcases h.holds with ⟨item, vs, hl, hc, hv⟩ | ⟨fields, slots, hl, hc, hfit⟩
  · rw [hc] at hp ⊢
    rw [Shape.asks, if_neg hk, hl]
    show (c.items item parts >>= _) = _
    rw [items_rebuilt hg hv hp]
    rfl
  · rw [hc] at hp ⊢
    exact contentOf_fields hg hl hk hfit hp

theorem contentOf_map (hg : ∀ z, (g z).type = z.type) {p : Pieces} {u : Bytes}
    (h : s.MapAs w p u) (hk : s.kind ≠ .union) (hp : parts.content = p.content.wire.map g) :
    c.contentOf s conversion parts s.asks = .ok (p.content.map g, 0) := by
  rw [h.wire] at hp
  rcases h.holds with ⟨key, value, es, hl, hc, he⟩ | ⟨fields, slots, hl, hc, hfit⟩
  · rw [hc] at hp ⊢
    rw [Shape.asks, if_neg hk, hl]
    show (c.entries key value parts >>= _) = _
    rw [entries_rebuilt hg he hp]
    rfl
  · rw [hc] at hp ⊢
    exact contentOf_fields hg hl hk hfit hp

theorem contentOf_scalar (hs : s.check t = .ok ()) {kind : Primitive} (hk : s.kind = .scalar kind)
    {x : Scalar} (hx : (s.scalarForm conversion).Holds x)
    (hp : parts.content = .scalar x.wire) :
    c.contentOf s conversion parts s.asks = .ok (.scalar x, 0) := by
  have hlayout := (check_scalar hs hk).1
  rw [Shape.asks, if_neg (by rw [hk]; simp), hlayout]
  show (parts.scalar (s.scalarForm conversion) >>= _) = _
  rw [Parts.scalar, hp]
  dsimp only
  rw [take_wire hx]
  rfl

theorem contentOf_variant (hk : s.kind = .union) {z : Value} (hp : parts.content = .variant z) :
    c.contentOf s conversion parts s.asks = .ok (.variant z, 0) := by
  have hvariant : parts.variant none = .ok z := by
    unfold Parts.variant
    rw [hp]
  rw [Shape.asks, if_pos hk]
  show (parts.variant none >>= _) = _
  rw [hvariant]
  rfl

/-- **What a declared type asks for is the content that was written**, with the images of its
    parts. -/
theorem contentOf_rebuilt (hconversion : conversion.Default) (hs : s.check t = .ok ()) {p : Pieces}
    {u : Bytes} (h : s.KindAs w p u)
    (hx : ∀ kind x, s.kind = .scalar kind → p.content = .scalar x →
      (s.scalarForm conversion).Holds x)
    (hg : ∀ z, (g z).type = z.type) (hp : parts.content = p.content.wire.map g) :
    c.contentOf s conversion parts (s.asksFor conversion) = .ok (p.content.map g, 0) := by
  have hasks : s.asksFor conversion = s.asks := by rw [Shape.asksFor, hconversion.asks]
  rw [hasks]
  cases h with
  | scalar hk hc hw =>
    rw [hc] at hp ⊢
    exact contentOf_scalar hs hk (hx _ _ hk hc) hp
  | list hk h => exact contentOf_array hg h (by rw [hk]; simp) hp
  | map hk h => exact contentOf_map hg h (by rw [hk]; simp) hp
  | constructor hk h =>
    cases h with
    | mk hi h => exact contentOf_array hg h (by rw [hk]; simp) hp
  | union hk h =>
    cases h with
    | mk hc hm hv =>
      rw [hc] at hp ⊢
      exact contentOf_variant hk hp

end contents

/-! ## 6. Entries in order -/

theorem insertNew_last {cmp : Value → Value → Ordering} {k v : Value} {es : List (Value × Value)}
    (h : ∀ e ∈ es, cmp k e.1 = .gt) : insertNew cmp k v es = some (es ++ [(k, v)]) := by
  induction es with
  | nil => rfl
  | cons e es ih =>
    obtain ⟨he, hes⟩ := List.forall_mem_cons.mp h
    rw [insertNew, he]
    dsimp only
    rw [ih hes]
    rfl

/-- **Entries in the order of their keys stay as they are.** -/
theorem orderEntries_of_sorted {cmp : Value → Value → Ordering} {position : Nat}
    {done es : List (Value × Value)} (hdone : ∀ e ∈ es, ∀ d ∈ done, cmp e.1 d.1 = .gt)
    (hes : es.Pairwise fun e e' => cmp e'.1 e.1 = .gt) :
    orderEntries cmp position done es = .ok (done ++ es) := by
  induction es generalizing position done with
  | nil => rw [orderEntries, List.append_nil]
  | cons e es ih =>
    obtain ⟨hfirst, hdone⟩ := List.forall_mem_cons.mp hdone
    obtain ⟨hlater, hes⟩ := List.pairwise_cons.mp hes
    rw [orderEntries, insertNew_last hfirst]
    dsimp only
    rw [ih ?_ hes, List.append_assoc]
    · rfl
    · intro e' he' d hd
      rcases List.mem_append.mp hd with hd | hd
      · exact hdone e' he' d hd
      · rw [List.mem_singleton.mp hd]
        exact hlater e' he'

/-! ## 7. Values -/

theorem Shape.KindAs.items_type {p : Pieces} {u : Bytes} (h : s.KindAs w p u)
    (hk : s.kind = .list ∨ s.kind = .constructor) {item : TypeExpr}
    (hl : s.layout = some (.items item)) {vs : List Value} (hc : p.content = .items vs) :
    ∀ z ∈ vs, z.type = item := by
  have harray : ∃ u, s.ArrayAs w p u := by
    cases h with
    | list _ h => exact ⟨_, h⟩
    | constructor _ h =>
      cases h with
      | mk hi h => exact ⟨_, h⟩
    | scalar hk' hc hx => rw [hk'] at hk; simp at hk
    | map hk' h => rw [hk'] at hk; simp at hk
    | union hk' h => rw [hk'] at hk; simp at hk
  obtain ⟨u, harray⟩ := harray
  rcases harray.holds with ⟨item', vs', hl', hc', hv⟩ | ⟨fields, slots, hl', _, _⟩
  · rw [hl, Option.some.injEq, Layout.items.injEq] at hl'
    rw [hc, Content.items.injEq] at hc'
    rwa [hl', hc']
  · rw [hl] at hl'
    cases hl'

theorem Shape.KindAs.entries_type {p : Pieces} {u : Bytes} (h : s.KindAs w p u) (hk : s.kind = .map)
    {key value : TypeExpr} (hl : s.layout = some (.entries key value)) {es : List (Value × Value)}
    (hc : p.content = .entries es) : ∀ e ∈ es, e.1.type = key ∧ e.2.type = value := by
  cases h with
  | map _ h =>
    rcases h.holds with ⟨key', value', es', hl', hc', he⟩ | ⟨fields, slots, hl', _, _⟩
    · rw [hl, Option.some.injEq, Layout.entries.injEq] at hl'
      rw [hc, Content.entries.injEq] at hc'
      rwa [hl'.1, hl'.2, hc']
    · rw [hl] at hl'
      cases hl'
  | scalar hk' hc hx => rw [hk] at hk'; cases hk'
  | list hk' h => rw [hk] at hk'; cases hk'
  | constructor hk' h => rw [hk] at hk'; cases hk'
  | union hk' h => rw [hk] at hk'; cases hk'

/-- A type that keeps nothing but a scalar takes it in by its form. -/
theorem construct_of_form {form : ScalarForm} (ht : t.form? = some form) (parts : Parts) :
    c.construct t s parts = Catalog.constructScalar t form parts := by
  cases t with
  | bool | uint64 | uint32 | int64 | text | bytes | null =>
    cases ht
    rfl
  | _ => cases ht

/-- **A scalar is taken in as it was**, by a type that keeps nothing else. -/
theorem scalar_rebuilt {form : ScalarForm} (ht : t.form? = some form) {x : Scalar}
    (hx : form.Holds x) {parts : Parts} (hp : parts.content = .scalar x.wire) :
    c.construct t s parts = .ok (.ofScalar t x) := by
  have hscalar : parts.scalar form = .ok x := by
    rw [Parts.scalar, hp]
    exact take_wire hx
  rw [construct_of_form ht, Catalog.constructScalar, hscalar]
  rfl

theorem resolve_scalar {form : ScalarForm} (ht : t.form? = some form) (hs : c.resolve t = .ok s) :
    ∃ kind, s.kind = .scalar kind := by
  cases t with
  | bool | uint64 | uint32 | int64 | text | bytes | null =>
    cases hs
    exact ⟨_, rfl⟩
  | _ => cases ht

theorem construct_named {name : String} (hdefault : (c.declared name).conversion.Default)
    {parts : Parts} {content : Content Value}
    (h : c.contentOf s (c.declared name).conversion parts
      (s.asksFor (c.declared name).conversion) = .ok (content, 0)) :
    c.construct (.named name) s parts = .ok (.node (.named name) content {
      alternative := parts.alternative
      observed := parts.style
      emit := if (c.declared name).conversion.keepsStyle then some parts.style else none
      raw := parts.raw }) :=
  construct_named_iff.mpr ⟨hdefault.reject, content, 0, h, rfl⟩

/-- The order of the keys of an ordered map looks at neither the bytes kept nor the style of the
    wire. -/
def Catalog.OrdersContents (c : Catalog) (key : TypeExpr) : Prop :=
  ∀ a a' b b', c.Same a a' → c.Same b b' → c.compareKeys key a b = c.compareKeys key a' b'

/-- **An ordered map is built of its entries in the order they had.** -/
theorem map_rebuilt {key value : TypeExpr} {es : List (Value × Value)}
    (hsorted : es.Pairwise fun e e' => c.compareKeys key e'.1 e.1 = .gt)
    (horder : c.OrdersContents key) (hg : ∀ z, c.Same z (g z))
    (he : ∀ e ∈ es, e.1.type = key ∧ e.2.type = value) {parts : Parts}
    (hp : parts.content = .entries (es.map fun e => (g e.1, g e.2))) :
    c.construct (.map key value) s parts =
      .ok (.node (.map key value) (.entries (es.map fun e => (g e.1, g e.2))) {}) := by
  have hentries : c.entries key value parts = .ok (es.map fun e => (g e.1, g e.2)) :=
    entries_rebuilt (fun z => (hg z).type_eq) he hp
  have hordered : orderEntries (c.compareKeys key) 0 [] (es.map fun e => (g e.1, g e.2)) =
      .ok (es.map fun e => (g e.1, g e.2)) := by
    refine orderEntries_of_sorted (by simp) ?_
    rw [List.pairwise_map]
    refine hsorted.imp fun {e e'} hgt => ?_
    rw [← horder _ _ _ _ (hg e'.1) (hg e.1)]
    exact hgt
  show c.constructMap key value parts = _
  rw [Catalog.constructMap, hentries, Except.ok_bind, hordered]
  rfl

/-- What a value built again is: its content is the image of the content, it has the index that was
    read, and it asks for the style of the value before or for the one that was read. -/
structure Value.Rebuilt (v : Value) (g : Value → Value) (parts : Parts) (v' : Value) : Prop where
  content : v'.content = v.content.map g
  alternative : v'.notes.alternative = parts.alternative
  emit : v'.notes.emit = v.notes.emit ∨ v'.notes.emit = some parts.style

/-- **A value of a declared type is built again**, of the content that was written. -/
theorem named_rebuilt {name : String} {content : Content Value} {notes : Notes}
    (hdefault : (c.declared name).conversion.Default) (hs : s.check t = .ok ()) {u : Bytes}
    (hk : s.KindAs w (Value.node (.named name) content notes).asPieces u)
    (hx : ∀ kind x, s.kind = .scalar kind → content = .scalar x →
      (s.scalarForm (c.declared name).conversion).Holds x)
    (he : notes.emit ≠ none → (c.declared name).conversion.keepsStyle = true)
    (hg : ∀ z, (g z).type = z.type) {parts : Parts}
    (hcontent : parts.content = content.wire.map g) :
    ∃ v', c.construct (.named name) s parts = .ok v' ∧
      (Value.node (.named name) content notes).Rebuilt g parts v' := by
  have hbuilt : c.contentOf s _ parts _ = .ok (content.map g, 0) :=
    contentOf_rebuilt hdefault hs hk hx hg hcontent
  refine ⟨_, construct_named hdefault hbuilt, rfl, rfl, ?_⟩
  show (if (c.declared name).conversion.keepsStyle then some parts.style else none) = notes.emit ∨
    (if (c.declared name).conversion.keepsStyle then some parts.style else none) = some parts.style
  by_cases hkeeps : (c.declared name).conversion.keepsStyle = true
  · exact .inr (if_pos hkeeps)
  · have hnone : notes.emit = none := by
      by_contra hemit
      exact hkeeps (he hemit)
    rw [if_neg hkeeps, hnone]
    exact .inl rfl

/-- **The value that is built is the one that was written**, with the images of the values in it. -/
theorem Catalog.Own.rebuilt {v : Value} (h : c.Own v)
    (hdefault : ∀ name, v.type = .named name → (c.declared name).conversion.Default)
    (horder : ∀ key value, v.type = .map key value → c.OrdersContents key)
    (hs : c.resolve v.type = .ok s) {u : Bytes} (hk : s.KindAs w v.asPieces u)
    (hg : ∀ z, c.Same z (g z)) {parts : Parts} (hcontent : parts.content = v.content.wire.map g)
    (halternative : parts.alternative = s.writtenIndex v.notes.alternative)
    (hframing : s.kind = .list → parts.style.indefinite = w.indefinite s.length v.notes.emit) :
    ∃ v', c.construct v.type s parts = .ok v' ∧ v.Rebuilt g parts v' := by
  have htype : ∀ z, (g z).type = z.type := fun z => (hg z).type_eq
  have hcheck := (resolve_check hs).1
  have hitems : ∀ item vs, (s.kind = .list ∨ s.kind = .constructor) →
      s.layout = some (.items item) → v.content = .items vs →
      c.items item parts = .ok (vs.map g) := by
    intro item vs hkind hl hc
    exact items_rebuilt htype (hk.items_type hkind hl hc) (by rw [hcontent, hc]; rfl)
  cases h with
  | scalar ht hx =>
    rename_i t form x
    refine ⟨.ofScalar t x, scalar_rebuilt ht hx hcontent, rfl, ?_, .inl rfl⟩
    obtain ⟨kind, hkind⟩ := resolve_scalar ht hs
    rw [halternative, writtenIndex_of_kind (by rw [hkind]; simp)]
    rfl
  | embedded payload =>
    cases hs
    refine ⟨.ofEmbedded payload parts.raw, ?_, rfl, halternative.symm, .inl rfl⟩
    show Catalog.construct c .embedded _ parts = _
    rw [Catalog.construct, hcontent]
    rfl
  | list item vs =>
    cases hs
    refine ⟨.ofItems item (vs.map g), ?_, rfl, halternative.symm, .inl rfl⟩
    show (c.items item parts >>= _) = _
    rw [hitems item vs (.inl rfl) rfl rfl]
    rfl
  | map he =>
    rename_i key value es
    cases hs
    exact ⟨_, map_rebuilt he (horder key value rfl) hg (hk.entries_type rfl rfl rfl) hcontent, rfl,
      halternative.symm, .inl rfl⟩
  | framedList item vs indefinite =>
    cases hs
    refine ⟨.framedList item (vs.map g) parts.style.indefinite, ?_, rfl, halternative.symm, .inl ?_⟩
    · show (c.items item parts >>= _) = _
      rw [hitems item vs (.inl rfl) rfl rfl]
      rfl
    · rw [hframing rfl]
      rfl
  | taggedSet item vs tagged =>
    cases hs
    have hdefinite : parts.style.indefinite = false := hframing rfl
    refine ⟨.taggedSet item (vs.map g) parts.style.tagged, ?_, rfl, halternative.symm, .inr ?_⟩
    · show (c.items item parts >>= _) = _
      rw [hitems item vs (.inl rfl) rfl rfl]
      rfl
    · show some ({ tagged := parts.style.tagged } : ItemStyle) = some parts.style
      rw [← hdefinite]
  | anyConstructor field index vs =>
    cases hs
    have hindex : parts.alternative = some index := halternative
    refine ⟨.anyConstructor field index (vs.map g), ?_, rfl, hindex.symm, .inl rfl⟩
    show Catalog.construct c (.anyConstructor field) _ parts = _
    rw [Catalog.construct, hindex]
    dsimp only
    rw [hitems field vs (.inr rfl) rfl rfl]
    rfl
  | named hs' hr hx he hi =>
    rename_i name s' content notes
    have hs : c.resolve (.named name) = .ok s := hs
    rw [hs', Except.ok.injEq] at hs
    subst hs
    exact named_rebuilt (hdefault name rfl) hcheck hk hx he htype hcontent

end CborSchema
