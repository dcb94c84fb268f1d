import CborSchema.Proofs.Decode.Bare
import CborSchema.Proofs.Decode.Discriminated
import CborSchema.Proofs.Decode.Elements
import CborSchema.Proofs.Decode.Taken
import CborSchema.Proofs.Raw.Spans
import CborSchema.Proofs.Roundtrip.Values

/-!
# Values that the writers admit

What the writers of the kinds ask of a content, but for the width of integers, is what the readers
of the kinds leave.

* `AdmitsSlot`, `Shape.AdmitsScalar`, `Shape.Admits` -- the slots, scalars and contents that the
  writers of a shape take;
* `KindAt.admits` -- the content of an item that was read is one;
* `Catalog.BuiltIn` -- a type that is built by its shape, its scalars in a form of their kind;
* `construct_admits` -- so the value that is built has one, too;
* `Catalog.Ready`, `ready_of_read` -- **whatever was read is admitted at every path**, and nests no
  deeper than was allowed; `Ready.mapNotes`: notes do not matter.
-/

namespace CborSchema

open Decoder

variable {c : Catalog} {s : Shape} {r : Reading} {t : TypeExpr}

/-! ## 1. Slots -/

/-- A slot with a value of the type of its field, or without one if the field has the given
    presence. -/
def AdmitsSlot (empty : Presence) (e : Field × Option Value) : Prop :=
  ∀ type presence, e.1.body = .value type presence →
    (e.2 = none → presence = empty) ∧ ∀ v, e.2 = some v → v.type = type

theorem AdmitsSlot.literal {empty : Presence} {f : Field} {l : Literal} (hf : f.body = .literal l)
    (slot : Option Value) : AdmitsSlot empty (f, slot) := by
  intro type presence hb
  dsimp only at hb
  rw [hf] at hb
  cases hb

theorem mem_writtenFields_cons {e x : Field × Option Value} {xs : List (Field × Option Value)}
    (h : e ∈ writtenFields (x :: xs)) : e = x ∨ e ∈ writtenFields xs := by
  rw [writtenFields, List.reverse_cons, List.dropWhile_append] at h
  split at h
  · have hmem := List.mem_reverse.mp h
    exact .inl (List.mem_singleton.mp (List.dropWhile_subset _ hmem))
  · rw [List.reverse_append] at h
    rcases List.mem_append.mp h with h | h
    · exact .inl (by simpa using h)
    · exact .inr h

/-- Fields that are all left out are none. -/
theorem writtenFields_omitted {entries : List (Field × Option Value)}
    (h : ∀ e ∈ entries, omitted e = true) : writtenFields entries = [] := by
  rw [writtenFields, List.dropWhile_eq_nil_iff.mpr fun e he => h e (List.mem_reverse.mp he)]
  rfl

theorem Field.body_of_optional {f : Field} (hf : f.presence = .optional) :
    ∃ type, f.body = .value type .optional := by
  rw [Field.presence] at hf
  split at hf
  · rename_i type presence hb
    subst hf
    exact ⟨type, hb⟩
  · cases hf

theorem alignFields_value {f : Field} {type : TypeExpr} {presence : Presence}
    (hf : f.body = .value type presence) (fs : List Field) (slot : Option Value)
    (slots : List (Option Value)) :
    alignFields (f :: fs) (slot :: slots) = (f, slot) :: alignFields fs slots := by
  rw [alignFields.eq_def]
  dsimp only
  rw [if_neg (by simp [Field.isLiteral, hf])]

theorem alignFields_of_literal {f : Field} {l : Literal} (hf : f.body = .literal l)
    (fs : List Field) (slots : List (Option Value)) :
    alignFields (f :: fs) slots = (f, none) :: alignFields fs slots := by
  rw [alignFields.eq_def]
  dsimp only
  rw [if_pos (by simp [Field.isLiteral, hf])]

/-- Each field that is no literal has a slot. -/
theorem Shape.Laid.length {fields : List Field} {slots : List (Option Value)} {n : Nat}
    {inner : Bytes} (h : s.Laid r fields slots n inner) :
    slots.length = fields.countP fun f => !f.isLiteral := by
  induction h with
  | past _ _ => rfl
  | literal hf _ _ ih => rw [ih, List.countP_cons_of_neg (by simp [Field.isLiteral, hf])]
  | value hf _ _ ih =>
    rw [List.length_cons, ih, List.countP_cons_of_pos (by simp [Field.isLiteral, hf])]
  | absent hf _ ih =>
    obtain ⟨type, hb⟩ := Field.body_of_optional hf
    rw [List.length_cons, ih, List.countP_cons_of_pos (by simp [Field.isLiteral, hb])]

/-- Where no element is left all fields are left out. -/
theorem Shape.Laid.omitted {fields : List Field} {slots : List (Option Value)} {inner : Bytes}
    (h : s.Laid r fields slots 0 inner) :
    ∀ e ∈ alignFields fields slots, CborSchema.omitted e = true := by
  generalize hn : 0 = n at h
  induction h with
  | past _ _ =>
    intro e he
    cases he
  | literal _ _ _ _ => cases hn
  | value _ _ _ _ => cases hn
  | absent hf _ ih =>
    obtain ⟨type, hb⟩ := Field.body_of_optional hf
    rw [alignFields_value hb]
    refine List.forall_mem_cons.mpr ⟨?_, ih rfl⟩
    rw [CborSchema.omitted, hf]
    rfl

/-- **Only a nullable field is written without a value**: the slots that are empty because no
    element is left stand at the end. -/
theorem Shape.Laid.admits {fields : List Field} {slots : List (Option Value)} {n : Nat}
    {inner : Bytes} (h : s.Laid r fields slots n inner) :
    ∀ e ∈ writtenFields (alignFields fields slots), AdmitsSlot .nullable e := by
  induction h with
  | past _ _ =>
    intro e he
    cases he
  | literal hf _ _ ih =>
    intro e he
    rw [alignFields_of_literal hf] at he
    rcases mem_writtenFields_cons he with rfl | he
    · exact .literal hf none
    · exact ih e he
  | value hf hx _ ih =>
    intro e he
    rw [alignFields_value hf] at he
    rcases mem_writtenFields_cons he with rfl | he
    · intro type presence hb
      dsimp only at hb
      rw [hf] at hb
      cases hb
      cases hx with
      | null hp => exact ⟨fun _ => hp, fun v hv => by cases hv⟩
      | value hv _ =>
        refine ⟨fun hnone => (by cases hnone), ?_⟩
        rintro _ ⟨⟩
        exact hv.type
    · exact ih e he
  | absent hf hs _ =>
    intro e he
    rw [writtenFields_omitted (Shape.Laid.omitted (.absent hf hs))] at he
    cases he

/-- The slots of a map, each with its field. -/
theorem alignFields_slotsOf (fields : List Field) (found : Found) :
    alignFields fields (slotsOf fields found) =
      fields.map fun f => (f, if f.isLiteral then none else (found.lookup f.key).join) := by
  induction fields with
  | nil => rfl
  | cons f fs ih =>
    cases hb : f.body with
    | literal l =>
      have hf : f.isLiteral = true := by simp [Field.isLiteral, hb]
      have hslots : slotsOf (f :: fs) found = slotsOf fs found := by
        rw [slotsOf, List.filter_cons_of_neg (by simp [hf])]
        rfl
      rw [hslots, alignFields_of_literal hb, ih, List.map_cons, if_pos hf]
    | value type presence =>
      have hf : f.isLiteral = false := by simp [Field.isLiteral, hb]
      have hslots : slotsOf (f :: fs) found = (found.lookup f.key).join :: slotsOf fs found := by
        rw [slotsOf, List.filter_cons_of_pos (by simp [hf])]
        rfl
      rw [hslots, alignFields_value hb, ih, List.map_cons, if_neg (by simp [hf])]

/-- What was read under a key that stands for a value is a value of its type. -/
theorem keyedSteps_types {fields : List Field} {found found' : Found} {k : Nat} {inner : Bytes}
    (h : Steps (KeyedStep s r fields) k found inner found')
    (hfound : ∀ e ∈ found, ∃ f ∈ fields, f.key = e.1 ∧
      ∀ type presence, f.body = .value type presence →
      ∃ v, e.2 = some v ∧ v.type = type) :
    ∀ e ∈ found', ∃ f ∈ fields, f.key = e.1 ∧ ∀ type presence, f.body = .value type presence →
      ∃ v, e.2 = some v ∧ v.type = type := by
  induction h with
  | nil => exact hfound
  | cons hx _ ih =>
    refine ih ?_
    cases hx with
    | unknown _ _ _ _ => exact hfound
    | literal _ hf _ hb _ =>
      refine List.forall_mem_cons.mpr ⟨⟨_, List.mem_of_find?_eq_some hf, rfl, ?_⟩, hfound⟩
      intro type presence hb'
      cases hb.symm.trans hb'
    | value _ hf _ hb hv =>
      refine List.forall_mem_cons.mpr ⟨⟨_, List.mem_of_find?_eq_some hf, rfl, ?_⟩, hfound⟩
      intro type presence hb'
      cases hb.symm.trans hb'
      exact ⟨_, rfl, hv.type⟩

/-- **Only an optional field of a map has no value.** -/
theorem slotsOf_admits {fields : List Field} {found : Found} {k : Nat} {inner : Bytes}
    (hn : (fields.map Field.key).Nodup) (h : Steps (KeyedStep s r fields) k [] inner found)
    (hc : checkPresent s.name found fields = .ok ()) :
    ∀ e ∈ alignFields fields (slotsOf fields found), AdmitsSlot .optional e := by
  have htypes := keyedSteps_types h (by simp)
  intro e he type presence hb
  rw [alignFields_slotsOf] at he
  obtain ⟨f, hf, rfl⟩ := List.mem_map.mp he
  have hb : f.body = .value type presence := hb
  have hliteral : ¬ f.isLiteral = true := by simp [Field.isLiteral, hb]
  dsimp only
  rw [if_neg hliteral]
  cases hlook : found.lookup f.key with
  | none =>
    refine ⟨fun _ => ?_, fun v hv => by cases hv⟩
    by_contra hp
    have hpresence : f.presence ≠ .optional := by rwa [Field.presence, hb]
    obtain ⟨e, hmem, hkey⟩ := List.mem_map.mp (checkPresent_found hc hf hpresence)
    have hne := List.lookup_eq_none_iff.mp hlook e hmem
    rw [hkey] at hne
    simp at hne
  | some slot =>
    obtain ⟨before, after, hfound, _⟩ := List.lookup_eq_some_iff.mp hlook
    obtain ⟨f', hf', hkey, hvalue⟩ := htypes (f.key, slot) (by simp [hfound])
    have hsame : some f' = some f := by
      rw [← find_key hn hf', ← find_key hn hf, hkey]
    obtain rfl := Option.some.inj hsame
    obtain ⟨v, rfl, hv⟩ := hvalue type presence hb
    refine ⟨fun hnone => (by cases hnone), ?_⟩
    rintro _ ⟨⟩
    exact hv

theorem slotsOf_length (fields : List Field) (found : Found) :
    (slotsOf fields found).length = fields.countP fun f => !f.isLiteral := by
  rw [slotsOf, List.length_map, List.countP_eq_length_filter]

/-! ## 2. Scalars -/

/-- A scalar that the writer of a kind takes, an integer if its width allows. -/
inductive Shape.AdmitsScalar (s : Shape) : Primitive → Scalar → Prop where
  | bool (b : Bool) : AdmitsScalar s .bool (.bool b)
  | null : AdmitsScalar s .null .null
  | uint (n : UInt64) : AdmitsScalar s .uint (.uint n)
  | unsigned (n : UInt64) : AdmitsScalar s .int (.uint n)
  | int (n : Int64) : AdmitsScalar s .int (.int n)
  | bytes {payload : Bytes} (hsize : s.checkSize payload = .ok ()) :
      AdmitsScalar s .bytes (.bytes payload)
  | embedded {payload : Bytes} (hsize : s.checkSize payload = .ok ()) :
      AdmitsScalar s .embedded (.bytes payload)
  | text {t : String} (hsize : s.checkSize (textPayload t) = .ok ()) :
      AdmitsScalar s .text (.text t)

/-- The forms that take in what the writer of a kind takes again. No form of the other integers
    does, nor a signed kind that leaves the magnitude of negative ones as it is. -/
def Primitive.suits : Primitive → ScalarForm → Bool
  | .bool, form => form == .bool || form == .any
  | .uint, form => form == .uint64 || form == .uint32 || form == .any
  | .int, form => form == .int64 || form == .uint64 || form == .uint32
  | .bytes, form => form == .bytes || form == .any
  | .embedded, form => form == .bytes || form == .any
  | .text, form => form == .text || form == .any
  | .null, form => form == .null || form == .any

theorem suits_form (kind : Primitive) : kind.suits kind.form = true := by
  cases kind <;> rfl

theorem Head.int_eq_ok {h : Head} {name : String} {y : Scalar} (hy : h.int name = .ok y) :
    y = .uint (h.arg.getD 0) ∨ y = .nint (h.arg.getD 0) := by
  unfold Head.int at hy
  split at hy
  · exact .inl (Except.ok.inj hy).symm
  · exact .inr (Except.ok.inj hy).symm
  · cases hy

/-- **A scalar that is taken in is one that is written**, in a form that suits the kind. -/
theorem Shape.ScalarAfter.admits {h : Head} {kind : Primitive} {y x : Scalar} {u : Bytes}
    {form : ScalarForm} (hy : s.ScalarAfter r h kind y u) (htake : form.take y = .ok x)
    (hsuits : kind.suits form = true) : s.AdmitsScalar kind x := by
  cases hy with
  | bool hb =>
    cases form with
    | bool | any =>
      cases htake
      exact .bool _
    | _ => cases hsuits
  | null hn =>
    cases form with
    | null | any =>
      cases htake
      exact .null
    | _ => cases hsuits
  | uint hn =>
    rcases take_eq_ok htake with rfl | ⟨m, rfl⟩
    · exact .uint _
    · cases form with
      | uint64 | any => cases htake
      | uint32 =>
        rw [ScalarForm.take] at htake
        split at htake <;> cases htake
      | _ => cases hsuits
  | int hn =>
    rcases take_eq_ok htake with rfl | ⟨m, rfl⟩
    · rcases Head.int_eq_ok hn with rfl | rfl
      · exact .unsigned _
      · cases form with
        | int64 =>
          rw [ScalarForm.take] at htake
          split at htake <;> cases htake
        | uint64 | uint32 => cases htake
        | _ => cases hsuits
    · exact .int m
  | bytes hp =>
    cases form with
    | bytes | any =>
      cases htake
      exact .bytes hp.size
    | _ => cases hsuits
  | embedded hp =>
    cases form with
    | bytes | any =>
      cases htake
      exact .embedded hp.size
    | _ => cases hsuits
  | text hp ht =>
    cases form with
    | text | any =>
      cases htake
      exact .text (by rw [textPayload_of_readText ht]; exact hp.size)
    | _ => cases hsuits

/-! ## 3. Contents -/

/-- A content that the writer of the kind of a shape takes, as far as it is up to the content
    itself. -/
inductive Shape.Admits (s : Shape) : Content Value → Prop where
  | scalar {kind : Primitive} {x : Scalar} (hk : s.kind = .scalar kind)
      (hx : s.AdmitsScalar kind x) : Admits s (.scalar x)
  | items {item : TypeExpr} {vs : List Value} (hk : s.kind = .list ∨ s.kind = .constructor)
      (hl : s.layout = some (.items item)) (hv : ∀ z ∈ vs, z.type = item) : Admits s (.items vs)
  | tuple {fields : List Field} {slots : List (Option Value)}
      (hk : s.kind = .list ∨ s.kind = .constructor) (hl : s.layout = some (.fields fields))
      (hn : slots.length = s.arity)
      (he : ∀ e ∈ writtenFields (alignFields fields slots), AdmitsSlot .nullable e) :
      Admits s (.fields slots)
  | entries {key value : TypeExpr} {es : List (Value × Value)} (hk : s.kind = .map)
      (hl : s.layout = some (.entries key value))
      (he : ∀ e ∈ es, e.1.type = key ∧ e.2.type = value) : Admits s (.entries es)
  | keyed {fields : List Field} {slots : List (Option Value)} (hk : s.kind = .map)
      (hl : s.layout = some (.fields fields)) (hn : slots.length = s.arity)
      (he : ∀ e ∈ alignFields fields slots, AdmitsSlot .optional e) : Admits s (.fields slots)
  | variant {v : Value} (hk : s.kind = .union) (hv : v.type ∈ s.candidates) : Admits s (.variant v)

theorem Shape.ArrayAt.admits {p : Parts} {u : Bytes} (h : s.ArrayAt r p u)
    (hk : s.kind = .list ∨ s.kind = .constructor) : s.Admits p.content := by
  obtain ⟨e, front, body, content, n, inner, _, _, _, hholds, rfl⟩ := Shape.arrayAt_iff.mp h
  cases hholds with
  | items hl hv =>
    refine .items hk hl fun z hz => ?_
    obtain ⟨x, hx⟩ := hv.exists_of_mem hz
    exact hx.type
  | fields hl hs => exact .tuple hk hl (hs.length.trans (arity_of_layout hl).symm) hs.admits

theorem Shape.MapAt.admits {p : Parts} {u : Bytes} (h : s.MapAt r p u) (hk : s.kind = .map)
    (hn : (s.fields.map Field.key).Nodup) : s.Admits p.content := by
  cases h with
  | entries hl _ _ hes _ =>
    refine .entries hk hl fun e he => ?_
    obtain ⟨e', he', rfl⟩ := List.mem_map.mp he
    obtain ⟨_, _, _, hkey, hvalue⟩ := hes.exists_of_mem he'
    exact ⟨hkey.type, hvalue.type⟩
  | fields hl _ _ hs hc =>
    rw [fields_of_layout hl] at hn
    exact .keyed hk hl ((slotsOf_length _ _).trans (arity_of_layout hl).symm)
      (slotsOf_admits hn hs hc)

/-- **What an item holds is admitted**, but for a scalar, which is not taken in yet. -/
theorem Shape.KindAt.admits (hr : r.Sound) (hs : s.check t = .ok ()) {p : Parts} {u : Bytes}
    (h : s.KindAt r p u) (hno : ∀ x, p.content ≠ .scalar x) : s.Admits p.content := by
  cases h with
  | scalar hk h =>
    cases h with
    | mk _ _ => exact absurd rfl (hno _)
  | list hk h => exact h.admits (.inl hk)
  | map hk h => exact h.admits hk (check_keys hs hk)
  | constructor hk h =>
    cases h with
    | mk _ _ h =>
      have hcontent := h.admits (.inr hk)
      exact hcontent
  | union hk h =>
    cases h with
    | mk _ hw => exact .variant hk (hw.partAt hr).2

/-! ## 4. Values -/

/-- A type that is built by its shape: a declared type asks for what its shape has, and takes a
    scalar in a form that suits its kind. -/
def Catalog.BuiltIn (c : Catalog) (t : TypeExpr) : Prop :=
  ∀ name, t = .named name → (c.declared name).conversion.Default ∧
    ∀ s kind, c.resolve t = .ok s → s.kind = .scalar kind →
      kind.suits (s.scalarForm (c.declared name).conversion) = true

/-- Declared types that say nothing about how they are built are built by their shapes. -/
theorem Catalog.BuiltIn.of_plain (h : ∀ name, (c.declared name).conversion = {}) (t : TypeExpr) :
    c.BuiltIn t := by
  intro name _
  rw [h name]
  refine ⟨⟨rfl, rfl⟩, fun s kind _ hkind => ?_⟩
  rw [Shape.scalarForm, hkind]
  exact suits_form kind

theorem Catalog.BuiltIn.suits (h : c.BuiltIn t) (hs : c.resolve t = .ok s) {kind : Primitive}
    (hk : s.kind = .scalar kind) : kind.suits (c.formOf s t) = true := by
  cases t with
  | named name => exact (h name rfl).2 s kind hs hk
  | list _ | map _ _ | framedList _ | taggedSet _ | anyConstructor _ =>
    cases hs
    cases hk
  | _ =>
    cases hs
    cases hk
    rfl

theorem variant_content {p : Parts} {accepted : Option (List TypeExpr)} {v : Value}
    (h : p.variant accepted = .ok v) : p.content = .variant v := by
  unfold Parts.variant at h
  split at h
  · rename_i hc
    cases h
    exact hc
  · rename_i hc
    split at h
    · cases h
      exact hc
    · cases h
  · cases h

theorem takes_length (s : Shape) : s.takes.length = s.arity := by
  rw [Shape.takes, Shape.arity, List.length_filterMap_eq_countP]
  congr 1
  funext f
  rw [Field.isLiteral]
  cases f.body <;> rfl

/-- **The content that a shape asks for is the content of the item**, where it is no scalar. -/
theorem contentOf_content {conversion : Conversion} {p : Parts} {content : Content Value}
    {untaken : Nat} (h : c.contentOf s conversion p s.asks = .ok (content, untaken))
    (hn : ∀ slots, p.content = .fields slots → slots.length = s.arity)
    (hno : ∀ x, content ≠ .scalar x) : content = p.content := by
  generalize hasks : s.asks = asks at h
  cases asks with
  | byShape | scalar =>
    obtain ⟨x, _, h⟩ := Except.bind_eq_ok h
    cases h
    exact absurd rfl (hno x)
  | variant accepted =>
    obtain ⟨v, hv, h⟩ := Except.bind_eq_ok h
    cases h
    exact (variant_content hv).symm
  | items item =>
    obtain ⟨vs, hv, h⟩ := Except.bind_eq_ok h
    cases h
    exact (items_eq_ok.mp hv).1.symm
  | entries key value =>
    obtain ⟨es, hv, h⟩ := Except.bind_eq_ok h
    cases h
    exact (entries_eq_ok.mp hv).1.symm
  | fields takes =>
    obtain ⟨⟨taken, left⟩, hv, h⟩ := Except.bind_eq_ok h
    cases h
    obtain rfl : takes = none := by
      unfold Shape.asks at hasks
      split at hasks
      · cases hasks
      · split at hasks <;> cases hasks
        rfl
    unfold Catalog.fields at hv
    split at hv
    · rename_i slots hc
      obtain ⟨hfit, rest, rfl, _⟩ := takeSlots_eq_ok.mp hv
      have hall := hn _ hc
      have htaken : taken.length = s.arity := hfit.length_eq.symm.trans (takes_length s)
      rw [List.length_append, htaken] at hall
      obtain rfl := List.eq_nil_of_length_eq_zero (by omega : rest.length = 0)
      rw [hc, List.append_nil]
    · cases hv

/-- The content of a value that is no scalar is that of the item, or its entries in another
    order. -/
theorem construct_content (hbuilt : c.BuiltIn t) {p : Parts} {v : Value}
    (hv : c.construct t s p = .ok v)
    (hn : ∀ slots, p.content = .fields slots → slots.length = s.arity)
    (hno : ∀ x, v.content ≠ .scalar x) : v.content = p.content ∨
      ∃ es es', p.content = .entries es ∧ v.content = .entries es' ∧ es'.Perm es := by
  have hplain : ∀ {form : ScalarForm}, Catalog.constructScalar t form p ≠ .ok v := by
    intro form h
    obtain ⟨_, x, _, _, rfl⟩ := constructScalar_eq_ok h
    exact hno x rfl
  cases t with
  | bool | uint64 | uint32 | int64 | text | bytes | null => exact absurd hv hplain
  | embedded =>
    rw [Catalog.construct] at hv
    split at hv
    · cases hv
      exact absurd rfl (hno _)
    · cases hv
    · cases hv
  | list item | framedList item | taggedSet item =>
    obtain ⟨vs, hvs, hv⟩ := Except.bind_eq_ok hv
    cases hv
    exact .inl (items_eq_ok.mp hvs).1.symm
  | map key value =>
    obtain ⟨es, hes, hv⟩ := Except.bind_eq_ok hv
    split at hv
    · rename_i ordered hordered
      cases hv
      have hperm := orderEntries_perm hordered
      rw [List.append_nil] at hperm
      exact .inr ⟨es, ordered, (entries_eq_ok.mp hes).1, rfl, hperm⟩
    · cases hv
  | anyConstructor field =>
    rw [Catalog.construct] at hv
    split at hv
    · obtain ⟨vs, hvs, hv⟩ := Except.bind_eq_ok hv
      cases hv
      exact .inl (items_eq_ok.mp hvs).1.symm
    · cases hv
  | named name =>
    obtain ⟨-, content, untaken, hc, rfl⟩ := construct_named_iff.mp hv
    rw [Shape.asksFor, (hbuilt name rfl).1.asks] at hc
    exact .inl (contentOf_content hc hn hno)

/-- A constructor is built with the index of its item. -/
theorem construct_alternative (hs : c.resolve t = .ok s) (hk : s.kind = .constructor) {p : Parts}
    {v : Value} (hv : c.construct t s p = .ok v) : v.notes.alternative = p.alternative := by
  cases t with
  | anyConstructor field =>
    rw [Catalog.construct] at hv
    split at hv
    · rename_i index hindex
      obtain ⟨vs, _, hv⟩ := Except.bind_eq_ok hv
      cases hv
      exact hindex.symm
    · cases hv
  | named name =>
    obtain ⟨-, content, untaken, -, rfl⟩ := construct_named_iff.mp hv
    rfl
  | _ =>
    cases hs
    cases hk

/-- The content that is built from an item that was read is admitted. -/
theorem construct_admits (hbuilt : c.BuiltIn t) (hs : c.resolve t = .ok s) (hr : r.Sound)
    {p : Parts} {u : Bytes} (hk : s.KindAt r p u) {p' : Parts} (hp : p'.content = p.content)
    {v : Value} (hv : c.construct t s p' = .ok v) : s.Admits v.content := by
  have hcheck := (resolve_check hs).1
  by_cases hscalar : ∃ x, v.content = .scalar x
  · obtain ⟨x, hx⟩ := hscalar
    obtain ⟨y, hy, htake⟩ := construct_scalar hv hx
    obtain ⟨kind, _, _, _, hkind, _, hafter⟩ := hk.scalarAfter (hp.symm.trans hy)
    rw [hx]
    exact .scalar hkind (hafter.admits htake (hbuilt.suits hs hkind))
  · have hno : ∀ x, v.content ≠ .scalar x := fun x hx => hscalar ⟨x, hx⟩
    by_cases hitem : ∃ y, p.content = .scalar y
    · obtain ⟨y, hy⟩ := hitem
      rcases construct_content hbuilt hv (by simp [hp, hy]) hno with h | ⟨es, _, h, _⟩
      · exact absurd (h.trans (hp.trans hy)) (hno y)
      · cases (hp.trans hy).symm.trans h
    · have hadmits := hk.admits hr hcheck fun y hy => hitem ⟨y, hy⟩
      rw [← hp] at hadmits
      have hn : ∀ slots, p'.content = .fields slots → slots.length = s.arity := by
        intro slots hslots
        rw [hslots] at hadmits
        cases hadmits with
        | tuple _ _ hn _ => exact hn
        | keyed _ _ hn _ => exact hn
      rcases construct_content hbuilt hv hn hno with h | ⟨es, es', hes, hes', hperm⟩
      · rw [h]
        exact hadmits
      · rw [hes] at hadmits
        rw [hes']
        cases hadmits with
        | entries hk hl he => exact .entries hk hl fun e hmem => he e (hperm.mem_iff.mp hmem)

/-- A value that the writers of its shape take, as far as it is up to the value itself. -/
structure Shape.Writable (s : Shape) (v : Value) : Prop where
  content : s.Admits v.content
  index : s.kind = .constructor → v.notes.alternative ≠ none

/-- **A value that is built from an item that was read is one that is written.** -/
theorem construct_writable (hbuilt : c.BuiltIn t) (hs : c.resolve t = .ok s) (hr : r.Sound)
    {p : Parts} {u : Bytes} (hk : s.KeptAt r p u) {v : Value} (hv : c.construct t s p = .ok v) :
    s.Writable v := by
  obtain ⟨_, _, p', _, hkind, hcontent, halternative, _⟩ := hk.behind_tag
  refine ⟨construct_admits hbuilt hs hr hkind hcontent hv, fun hconstructor => ?_⟩
  rw [construct_alternative hs hconstructor hv, halternative]
  cases hkind.constructorAt hconstructor with
  | mk _ _ _ => exact Option.some_ne_none _

/-! ## 5. Parts -/

/-- Each value in a slot stands with a field that is written. -/
theorem exists_written {fields : List Field} {slots : List (Option Value)}
    (hl : s.layout = some (.fields fields)) (hn : slots.length = s.arity) {z : Value}
    (hz : z ∈ (Content.fields slots).parts) :
    ∃ e ∈ writtenFields (alignFields fields slots), e.2 = some z := by
  rw [Content.parts, ← alignFields_slots (hn.trans (Shape.arity_of_layout hl)),
    ← writtenFields_slots] at hz
  exact List.mem_filterMap.mp hz

theorem AdmitsSlot.part_type {empty : Presence} {fields : List Field} {slots : List (Option Value)}
    (hl : s.layout = some (.fields fields)) {e : Field × Option Value}
    (hmem : e ∈ alignFields fields slots) (he : AdmitsSlot empty e) {z : Value}
    (hz : e.2 = some z) : z.type ∈ s.partTypes := by
  cases hb : e.1.body with
  | literal l =>
    rw [alignFields_literal hmem (by simp [Field.isLiteral, hb])] at hz
    cases hz
  | value type presence =>
    have hf : e.1 ∈ fields := by
      rw [← alignFields_fields fields slots]
      exact List.mem_map_of_mem hmem
    rw [(he type presence hb).2 z hz]
    exact Shape.field_mem hl hf hb

/-- Each part of an admitted content is of a type that its shape names. -/
theorem Shape.Admits.part_type {content : Content Value} (h : s.Admits content) {z : Value}
    (hz : z ∈ content.parts) : z.type ∈ s.partTypes := by
  cases h with
  | scalar _ _ => cases hz
  | items _ hl hv =>
    rw [hv z hz]
    exact item_mem hl
  | tuple _ hl hn he =>
    obtain ⟨e, hmem, hslot⟩ := exists_written hl hn hz
    exact (he e hmem).part_type hl (mem_of_mem_writtenFields hmem) hslot
  | entries _ hl he =>
    obtain ⟨e, hmem, hz⟩ := List.mem_flatMap.mp hz
    obtain ⟨hkey, hvalue⟩ := entry_mem hl
    rcases List.mem_cons.mp hz with rfl | hz
    · rw [(he e hmem).1]
      exact hkey
    · rw [List.mem_singleton.mp hz, (he e hmem).2]
      exact hvalue
  | keyed _ hl hn he =>
    obtain ⟨e, hmem, hslot⟩ := exists_written hl hn hz
    have hmem := mem_of_mem_writtenFields hmem
    exact (he e hmem).part_type hl hmem hslot
  | variant _ hv =>
    rw [List.mem_singleton.mp hz]
    exact candidate_mem hv

theorem AdmitsSlot.map {empty : Presence} {g : Value → Value} (hg : ∀ z, (g z).type = z.type)
    {e : Field × Option Value} (he : AdmitsSlot empty e) : AdmitsSlot empty (imageSlot g e) := by
  intro type presence hb
  obtain ⟨hnone, hsome⟩ := he type presence hb
  refine ⟨fun h => hnone (Option.map_eq_none_iff.mp h), fun v hv => ?_⟩
  obtain ⟨z, hz, rfl⟩ := Option.map_eq_some_iff.mp hv
  rw [hg z, hsome z hz]

/-- Whether a content is admitted depends on the types of its parts alone. -/
theorem Shape.Admits.map {g : Value → Value} (hg : ∀ z, (g z).type = z.type)
    {content : Content Value} (h : s.Admits content) : s.Admits (content.map g) := by
  cases h with
  | scalar hk hx => exact .scalar hk hx
  | items hk hl hv =>
    refine .items hk hl fun z' hz' => ?_
    obtain ⟨z, hz, rfl⟩ := List.mem_map.mp hz'
    rw [hg z, hv z hz]
  | tuple hk hl hn he =>
    refine .tuple hk hl ((List.length_map _).trans hn) fun e' he' => ?_
    rw [alignFields_map, writtenFields_map] at he'
    obtain ⟨e, hmem, rfl⟩ := List.mem_map.mp he'
    exact (he e hmem).map hg
  | entries hk hl he =>
    refine .entries hk hl fun e' he' => ?_
    obtain ⟨e, hmem, rfl⟩ := List.mem_map.mp he'
    rw [hg e.1, hg e.2]
    exact he e hmem
  | keyed hk hl hn he =>
    refine .keyed hk hl ((List.length_map _).trans hn) fun e' he' => ?_
    rw [alignFields_map] at he'
    obtain ⟨e, hmem, rfl⟩ := List.mem_map.mp he'
    exact (he e hmem).map hg
  | variant hk hv => exact .variant hk (by rwa [hg])

/-! ## 6. Whole values -/

/-- At every path in a value stands one that its writers take, and no path is as long as the nesting
    allowed. -/
def Catalog.Ready (c : Catalog) (depth : Nat) (v : Value) : Prop :=
  ∀ path y, v.at? path = some y → path.length < depth ∧ ∃ s, c.resolve y.type = .ok s ∧ s.Writable y

theorem Catalog.Ready.part {depth : Nat} {v z : Value} (h : c.Ready (depth + 1) v)
    (hz : z ∈ v.content.parts) : c.Ready depth z := by
  intro path y hy
  obtain ⟨i, hi⟩ := Value.at?_of_part hz hy
  obtain ⟨hlength, hwritable⟩ := h (i :: path) y hi
  rw [List.length_cons] at hlength
  exact ⟨by omega, hwritable⟩

theorem Catalog.Ready.of_parts {depth : Nat} {v : Value} (hs : c.resolve v.type = .ok s)
    (hv : s.Writable v) (hparts : ∀ z ∈ v.content.parts, c.Ready depth z) :
    c.Ready (depth + 1) v := by
  intro path y hy
  cases path with
  | nil =>
    cases hy
    exact ⟨Nat.succ_pos depth, s, hs, hv⟩
  | cons i path =>
    obtain ⟨z, hz, hy⟩ := Value.at?_cons hy
    obtain ⟨hlength, hwritable⟩ := hparts z hz path y hy
    exact ⟨Nat.succ_lt_succ hlength, hwritable⟩

/-- **Whatever was read is admitted at every path**, by induction on the nesting that is left. -/
theorem ready_of_read {o : DecodeOptions} {n : Nat} {v : Value} {b : Bytes}
    (hbuilt : ∀ u, c.Reaches t u → c.BuiltIn u) (ht : c.Reaches t v.type)
    (h : c.codec.ReadFrom o n v b) : c.Ready n v := by
  induction n generalizing v b with
  | zero => exact absurd h Codec.not_reads_zero
  | succ n ih =>
    have hr := c.codec.sound o n
    cases Codec.readAt_of_reads hr h with
    | mk hs hk hv =>
      have hwritable := construct_writable (hbuilt _ ht) hs hr hk hv
      refine .of_parts hs hwritable fun z hz => ?_
      obtain ⟨m, hm, hcut⟩ := cut_of_read h
      obtain rfl := Nat.succ.inj hm
      obtain ⟨x, hx⟩ := hcut.exists_of_mem hz
      exact ih (.part ht hs (hwritable.content.part_type hz)) hx

section notes

variable {f : Notes → Notes}

theorem type_mapNotes (v : Value) : (v.mapNotes f).type = v.type := by
  obtain ⟨t, content, n⟩ := v
  rfl

theorem content_mapNotes (v : Value) :
    (v.mapNotes f).content = v.content.map (Value.mapNotes f) := by
  obtain ⟨t, content, n⟩ := v
  exact mapContent_eq_map f content

theorem notes_mapNotes (v : Value) : (v.mapNotes f).notes = f v.notes := by
  obtain ⟨t, content, n⟩ := v
  rfl

theorem at?_mapNotes (v : Value) (path : List Nat) :
    (v.mapNotes f).at? path = (v.at? path).map (Value.mapNotes f) := by
  induction path generalizing v with
  | nil => rfl
  | cons i path ih =>
    rw [Value.at?, Value.at?, content_mapNotes, Content.parts_map, List.getElem?_map]
    cases v.content.parts[i]? with
    | none => rfl
    | some z => exact ih z

/-- Notes other than the index do not matter. -/
theorem Catalog.Ready.mapNotes (hf : ∀ n, (f n).alternative = n.alternative) {depth : Nat}
    {v : Value} (h : c.Ready depth v) : c.Ready depth (v.mapNotes f) := by
  intro path y' hy'
  rw [at?_mapNotes] at hy'
  obtain ⟨y, hy, rfl⟩ := Option.map_eq_some_iff.mp hy'
  obtain ⟨hlength, s, hs, hwritable⟩ := h path y hy
  refine ⟨hlength, s, (type_mapNotes y).symm ▸ hs, ?_, ?_⟩
  · rw [content_mapNotes]
    exact hwritable.content.map type_mapNotes
  · rw [notes_mapNotes, hf]
    exact hwritable.index

end notes

end CborSchema
