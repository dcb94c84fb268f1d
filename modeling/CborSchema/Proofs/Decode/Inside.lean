import CborSchema.Proofs.Decode.Gathers
import CborSchema.Proofs.Shape.Checked

/-!
# What lies inside an item of a shape

Where the bytes of an item that a shape reads go: to its parts, each of a type of its own, or to
items that it passes over. Both are said of the bytes alone, whatever reads them and with whatever
limits.

* `Shape.PartIn`, `Shape.ExtraIn` -- the parts of a collection, and the items it passes over;
* `Shape.Lead` -- what a shape has in front of an item of its kind: its tag, or a constructor index;
* `Shape.Converts`, `Shape.PassesOver` -- the parts of an item and what it passes over, behind its
  lead;
* `KeptAt.converts`, `KeptAt.passesOver` -- **in an item that was read each part was read, and what
  was passed over nests no deeper than the limit allows**;
* `KeptAt.reread` -- **a reading of the same parts reads the same item**, unless something is passed
  over.

The candidates of a union are all parts of it here: which of them takes the item depends on the
reading.
-/

namespace CborSchema

open Decoder

variable {s : Shape} {r r' : Reading}

/-! ## 1. Parts of a collection -/

/-- Where the parts of a collection of a shape stand, and of which type each is. -/
inductive Shape.PartIn (s : Shape) (u : Bytes) : TypeExpr → Bytes → Prop where
  | item {item : TypeExpr} {xs : List Bytes} {x : Bytes} (hl : s.layout = some (.items item))
      (hu : Gathers .array xs u) (hx : x ∈ xs) : PartIn s u item x
  | field {fields : List Field} {xs : List Bytes} {type : TypeExpr} {x : Bytes}
      (hl : s.layout = some (.fields fields)) (hu : Gathers .array xs u)
      (hx : FieldElement fields xs type x) : PartIn s u type x
  | key {key value : TypeExpr} {es : List (Bytes × Bytes)} {e : Bytes × Bytes}
      (hl : s.layout = some (.entries key value)) (hu : Gathers .map (pairItems es) u)
      (he : e ∈ es) :
      PartIn s u key e.1
  | value {key value : TypeExpr} {es : List (Bytes × Bytes)} {e : Bytes × Bytes}
      (hl : s.layout = some (.entries key value)) (hu : Gathers .map (pairItems es) u)
      (he : e ∈ es) :
      PartIn s u value e.2
  /-- The value under the key of a field. -/
  | keyed {fields : List Field} {es : List (Bytes × Bytes)} {e : Bytes × Bytes} {f : Field}
      {type : TypeExpr} {presence : Presence} (hl : s.layout = some (.fields fields))
      (hu : Gathers .map (pairItems es) u) (he : e ∈ es) (hf : f ∈ fields)
      (hk : KeyAt (.widest e.1.length) (.field f.key) e.1) (hb : f.body = .value type presence) :
      PartIn s u type e.2

/-- What a collection of a shape passes over: elements past the last field, and entries under the
    key of no field. -/
inductive Shape.ExtraIn (s : Shape) (u : Bytes) : Bytes → Prop where
  | element {fields : List Field} {xs : List Bytes} {j : Nat} {x : Bytes}
      (hl : s.layout = some (.fields fields)) (hu : Gathers .array xs u) (hx : xs[j]? = some x)
      (hj : fields.length ≤ j) : ExtraIn s u x
  | key {fields : List Field} {es : List (Bytes × Bytes)} {e : Bytes × Bytes}
      (hl : s.layout = some (.fields fields)) (hu : Gathers .map (pairItems es) u) (he : e ∈ es)
      (hk : ∀ f ∈ fields, ¬ KeyAt (.widest e.1.length) (.field f.key) e.1) : ExtraIn s u e.1
  | value {fields : List Field} {es : List (Bytes × Bytes)} {e : Bytes × Bytes}
      (hl : s.layout = some (.fields fields)) (hu : Gathers .map (pairItems es) u) (he : e ∈ es)
      (hk : ∀ f ∈ fields, ¬ KeyAt (.widest e.1.length) (.field f.key) e.1) : ExtraIn s u e.2

/-- A part is of one of the types that the shape names. -/
theorem Shape.PartIn.mem {u : Bytes} {t : TypeExpr} {x : Bytes} (h : s.PartIn u t x) :
    t ∈ s.partTypes := by
  cases h with
  | item hl _ _ => exact Shape.item_mem hl
  | field hl _ hx =>
    obtain ⟨j, f, presence, hf, _, hb, _⟩ := hx
    exact Shape.field_mem hl (List.mem_of_getElem? hf) hb
  | key hl _ _ => exact (Shape.entry_mem hl).1
  | value hl _ _ => exact (Shape.entry_mem hl).2
  | keyed hl _ _ hf _ hb => exact Shape.field_mem hl hf hb

/-! ## 2. Collections that were read -/

section collections

variable {parts : Parts} {u : Bytes}

/-- **Each part in an array was read.** -/
theorem Shape.ArrayAt.part_read (h : s.ArrayAt r parts u) {t : TypeExpr} {x : Bytes}
    (hx : s.PartIn u t x) : ∃ z ∈ parts.content.parts, r.PartAt t z x := by
  obtain ⟨e, front, body, content, n, inner, rfl, ho, hb, hc, rfl⟩ := Shape.arrayAt_iff.mp h
  cases hx with
  | item hl hu hx =>
    obtain ⟨-, rfl, hxs⟩ := ho.inner_eq hb hu
    cases hc with
    | items hl' hv =>
      cases hl.symm.trans hl'
      exact hv.mem_of_flatten (fun _ _ hat => hat.item) hxs hx
    | fields hl' _ => cases hl.symm.trans hl'
  | field hl hu hx =>
    obtain ⟨-, rfl, hxs⟩ := ho.inner_eq hb hu
    cases hc with
    | items hl' _ => cases hl.symm.trans hl'
    | fields hl' hlaid =>
      cases hl.symm.trans hl'
      exact hlaid.part_at hxs hx
  | key hl hu _ => cases (ho.inner_eq hb hu).1
  | value hl hu _ => cases (ho.inner_eq hb hu).1
  | keyed hl hu _ _ _ _ => cases (ho.inner_eq hb hu).1

/-- **What an array passes over nests as deep as is left at most.** -/
theorem Shape.ArrayAt.extra_item (h : s.ArrayAt r parts u) {x : Bytes} (hx : s.ExtraIn u x) :
    Item (r.depth + 1) x := by
  obtain ⟨e, front, body, content, n, inner, rfl, ho, hb, hc, rfl⟩ := Shape.arrayAt_iff.mp h
  cases hx with
  | element hl hu hx hj =>
    obtain ⟨-, rfl, hxs⟩ := ho.inner_eq hb hu
    cases hc with
    | items hl' _ => cases hl.symm.trans hl'
    | fields hl' hlaid =>
      cases hl.symm.trans hl'
      exact hlaid.item_past hxs hj hx
  | key hl hu _ _ => cases (ho.inner_eq hb hu).1
  | value hl hu _ _ => cases (ho.inner_eq hb hu).1

/-- **An array whose parts are read again is read again**, if nothing may be passed over. -/
theorem Shape.ArrayAt.reread (h : s.ArrayAt r parts u) (hlen : r.options.LengthsWithin r'.options)
    (he : s.extensible = false)
    (hparts : ∀ t x z, s.PartIn u t x → r.PartAt t z x → r'.PartAt t z x) :
    s.ArrayAt r' parts u := by
  obtain ⟨e, front, body, content, n, inner, rfl, ho, hb, hc, rfl⟩ := Shape.arrayAt_iff.mp h
  refine Shape.arrayAt_iff.mpr ⟨e, front, body, content, n, inner, rfl, ho.mono hlen, hb, ?_, rfl⟩
  obtain ⟨xs, hk, rfl, hxs⟩ := hc.inRow.exists_list
  have hu := ho.gathers (w := 1) rfl hb (by rw [hk, Nat.mul_one]) rfl hxs
  cases hc with
  | items hl hv =>
    exact .items hl (hv.mono_items (fun _ _ hat => hat.item) hxs fun z x hx =>
      hparts _ x z (.item hl hu hx))
  | fields hl hlaid =>
    exact .fields hl (hlaid.reread hxs he hlen fun t x z hx => hparts t x z (.field hl hu hx))

/-- **Each part in a map was read**, where the keys of the fields differ. -/
theorem Shape.MapAt.part_read (h : s.MapAt r parts u) (hn : (s.fields.map Field.key).Nodup)
    {t : TypeExpr} {x : Bytes} (hx : s.PartIn u t x) :
    ∃ z ∈ parts.content.parts, r.PartAt t z x := by
  obtain ⟨e, front, body, content, n, inner, rfl, ho, hb, hc, rfl⟩ := Shape.mapAt_iff.mp h
  cases hx with
  | item hl hu _ => cases (ho.inner_eq hb hu).1
  | field hl hu _ => cases (ho.inner_eq hb hu).1
  | key hl hu he =>
    obtain ⟨-, rfl, hes⟩ := ho.inner_eq hb hu
    cases hc with
    | entries hl' hrow _ =>
      cases hl.symm.trans hl'
      obtain ⟨e', he', hk, _⟩ := hrow.entry_read hes he
      exact ⟨e'.2.1, List.mem_flatMap.mpr ⟨e'.2, List.mem_map_of_mem he', by simp⟩, hk⟩
    | fields hl' _ _ => cases hl.symm.trans hl'
  | value hl hu he =>
    obtain ⟨-, rfl, hes⟩ := ho.inner_eq hb hu
    cases hc with
    | entries hl' hrow _ =>
      cases hl.symm.trans hl'
      obtain ⟨e', he', _, hv⟩ := hrow.entry_read hes he
      exact ⟨e'.2.2, List.mem_flatMap.mpr ⟨e'.2, List.mem_map_of_mem he', by simp⟩, hv⟩
    | fields hl' _ _ => cases hl.symm.trans hl'
  | keyed hl hu he hf hk hb' =>
    obtain ⟨-, rfl, hes⟩ := ho.inner_eq hb hu
    cases hc with
    | entries hl' _ _ => cases hl.symm.trans hl'
    | fields hl' hsteps _ =>
      cases hl.symm.trans hl'
      rw [Shape.fields, hl] at hn
      obtain ⟨t₁, t₂, hstep, hstays⟩ := keyedSteps_entry hsteps hes he
      obtain ⟨-, -, hunder⟩ := hstep.under hn hf rfl hk
      rcases hunder with ⟨l, hlit, _, _⟩ | ⟨type, presence, z, hval, hat, rfl⟩
      · cases hb'.symm.trans hlit
      · obtain ⟨rfl, rfl⟩ := FieldBody.value.inj (hval.symm.trans hb')
        refine ⟨z, ?_, hat⟩
        have hfound := (keyedSteps_found hsteps ⟨by simp, by simp⟩).1
        refine (slotsOf_perm hn hfound).mem_iff.mpr (List.mem_filterMap.mpr ?_)
        exact ⟨(_, some z), hstays _ List.mem_cons_self, rfl⟩

/-- What stands in the place of a key nests as deep as is left at most. -/
theorem KeyAt.item_within {key : KeyItem} {x : Bytes} (h : KeyAt r key x) :
    Item (r.depth + 1) x := by
  cases h with
  | unsigned hh hm hn => exact .plain hh (by simp [hn]) (.inl hm)
  | negative hh hm hn => exact .plain hh (by simp [hn]) (.inr (.inl hm))
  | text hh hm hp _ => exact .string hh (.inr hm) hp.largest
  | other _ _ hi => exact hi

/-- A step under the key of no field passes over its entry. -/
theorem KeyedStep.passed {fields : List Field} {t t' : Found} {e : Bytes × Bytes}
    (h : KeyedStep s r fields t (e.1 ++ e.2) t') (h₁ : IsItem e.1)
    (hk : ∀ f ∈ fields, ¬ KeyAt (.widest e.1.length) (.field f.key) e.1) :
    Item (r.depth + 1) e.1 ∧ Item (r.depth + 1) e.2 := by
  have hfield : ∀ {key : KeyItem} {f : Field} {u v : Bytes}, KeyAt r key u →
      (fields.find? fun f => key == .field f.key) = some f → e.1 ++ e.2 = u ++ v → False := by
    intro key f u v hat hf hu
    obtain ⟨rfl, _⟩ := hat.isItem.cancel h₁ hu.symm
    obtain rfl : key = .field f.key := by simpa using List.find?_some hf
    exact hk f (List.mem_of_find?_eq_some hf) hat.widest
  generalize hu : e.1 ++ e.2 = x at h
  cases h with
  | unknown hat _ _ hv =>
    obtain ⟨hkey, rfl⟩ := hat.isItem.cancel h₁ hu.symm
    exact ⟨hkey ▸ hat.item_within, hv⟩
  | literal hat hf _ _ _ => exact (hfield hat hf hu).elim
  | value hat hf _ _ _ => exact (hfield hat hf hu).elim

/-- **What a map passes over nests as deep as is left at most.** -/
theorem Shape.MapAt.extra_item (h : s.MapAt r parts u) {x : Bytes} (hx : s.ExtraIn u x) :
    Item (r.depth + 1) x := by
  obtain ⟨e, front, body, content, n, inner, rfl, ho, hb, hc, rfl⟩ := Shape.mapAt_iff.mp h
  have passed : ∀ {fields : List Field} {es : List (Bytes × Bytes)} {e : Bytes × Bytes},
      s.layout = some (.fields fields) → Gathers .map (pairItems es) (front ++ body) → e ∈ es →
      (∀ f ∈ fields, ¬ KeyAt (.widest e.1.length) (.field f.key) e.1) →
      Item (r.depth + 1) e.1 ∧ Item (r.depth + 1) e.2 := by
    intro fields es e hl hu he hk
    obtain ⟨-, rfl, hes⟩ := ho.inner_eq hb hu
    cases hc with
    | entries hl' _ _ => cases hl.symm.trans hl'
    | fields hl' hsteps _ =>
      cases hl.symm.trans hl'
      obtain ⟨t₁, t₂, hstep, _⟩ := keyedSteps_entry hsteps hes he
      exact hstep.passed (hes e.1 (mem_pairItems he)) hk
  cases hx with
  | element hl hu _ _ => cases (ho.inner_eq hb hu).1
  | key hl hu he hk => exact (passed hl hu he hk).1
  | value hl hu he hk => exact (passed hl hu he hk).2

/-- A step is taken again where its value is read again, unless it passes over an entry. -/
theorem KeyedStep.reread {fields : List Field} {t t' : Found} {e : Bytes × Bytes}
    (h : KeyedStep s r fields t (e.1 ++ e.2) t') (h₁ : IsItem e.1) (he : s.extensible = false)
    (hlen : r.options.LengthsWithin r'.options)
    (hparts : ∀ f ∈ fields, KeyAt (.widest e.1.length) (.field f.key) e.1 → ∀ type presence z,
      f.body = .value type presence → r.PartAt type z e.2 → r'.PartAt type z e.2) :
    KeyedStep s r' fields t (e.1 ++ e.2) t' := by
  have hkey : ∀ {key : KeyItem} {f : Field} {y v : Bytes}, KeyAt r key y →
      (fields.find? fun f => key == .field f.key) = some f → e.1 ++ e.2 = y ++ v →
      KeyAt r' key y ∧ f ∈ fields ∧ e.1 = y ∧ e.2 = v ∧ key = .field f.key := by
    intro key f y v hat hf hx
    obtain ⟨rfl, rfl⟩ := h₁.cancel hat.isItem hx
    obtain rfl : key = .field f.key := by simpa using List.find?_some hf
    exact ⟨hat.mono_field hlen, List.mem_of_find?_eq_some hf, rfl, rfl, rfl⟩
  generalize hx : e.1 ++ e.2 = x at h ⊢
  cases h with
  | unknown _ _ hopen _ =>
    rw [he] at hopen
    cases hopen
  | literal hat hf hnew hlit hv =>
    exact .literal (hkey hat hf hx).1 hf hnew hlit (hv.mono hlen)
  | value hat hf hnew hval hv =>
    obtain ⟨hat', hfield, rfl, rfl, rfl⟩ := hkey hat hf hx
    exact .value hat' hf hnew hval (hparts _ hfield hat.widest _ _ _ hval hv)

/-- **A map whose parts are read again is read again**, if nothing may be passed over. -/
theorem Shape.MapAt.reread (h : s.MapAt r parts u) (hlen : r.options.LengthsWithin r'.options)
    (he : s.extensible = false)
    (hparts : ∀ t x z, s.PartIn u t x → r.PartAt t z x → r'.PartAt t z x) : s.MapAt r' parts u := by
  obtain ⟨e, front, body, content, n, inner, rfl, ho, hb, hc, rfl⟩ := Shape.mapAt_iff.mp h
  refine Shape.mapAt_iff.mpr ⟨e, front, body, content, n, inner, rfl, ho.mono hlen, hb, ?_, rfl⟩
  obtain ⟨es, hk, rfl, hes⟩ := hc.inRow.exists_pairs
  have hu := ho.gathers (w := 2) rfl hb (by rw [length_pairItems, hk]) rfl hes
  cases hc with
  | entries hl hrow hkeys =>
    refine .entries hl (hrow.entries_mono hes (fun e he z => ?_) fun e he z => ?_) hkeys
    · exact hparts _ e.1 z (.key hl hu he)
    · exact hparts _ e.2 z (.value hl hu he)
  | fields hl hsteps hpresent =>
    refine .fields hl (keyedSteps_mono hsteps hes fun e hmem t t' hstep => ?_) hpresent
    refine hstep.reread (hes e.1 (mem_pairItems hmem)) he hlen
      fun f hf hk type presence z hval => ?_
    exact hparts type e.2 z (.keyed hl hu hmem hf hk hval)

end collections

/-! ## 3. In front of a collection -/

/-- What a shape has in front of an item of its kind, and whether that is its tag. -/
inductive Shape.Lead (s : Shape) : Bool → Bytes → Prop where
  | bare (hk : s.kind ≠ .constructor) : Lead s false []
  | tag {rule : TagRule} {h : Head} {front : Bytes} (hk : s.kind ≠ .constructor)
      (ht : s.tag = some rule) (hh : h.Spelled front) (hm : h.major = .tag)
      (ha : h.arg.getD 0 = rule.number) : Lead s true front
  | index {index : UInt64} {front : Bytes} (hk : s.kind = .constructor) (hi : IndexAt index front) :
      Lead s false front

/-- **The lead in front of bytes that are not tagged themselves is known by the bytes.** -/
theorem Shape.Lead.cancel {tagged tagged' : Bool} {x x' u u' : Bytes} (h : s.Lead tagged x)
    (h' : s.Lead tagged' x') (hu : ∃ head, StartsHead head u ∧ head.major ≠ .tag)
    (hu' : ∃ head, StartsHead head u' ∧ head.major ≠ .tag) (e : x ++ u = x' ++ u') :
    tagged = tagged' ∧ x = x' ∧ u = u' := by
  obtain ⟨head, hstart, hne⟩ := hu
  obtain ⟨head', hstart', hne'⟩ := hu'
  cases h with
  | bare hk =>
    cases h' with
    | bare _ => exact ⟨rfl, rfl, e⟩
    | tag _ _ hh hm _ =>
      rw [List.nil_append] at e
      subst e
      obtain rfl := hstart.unique (hh.starts u')
      exact absurd hm hne
    | index hk' _ => exact absurd hk' hk
  | tag hk _ hh hm _ =>
    cases h' with
    | bare _ =>
      rw [List.nil_append] at e
      subst e
      obtain rfl := hstart'.unique (hh.starts u)
      exact absurd hm hne'
    | tag _ _ hh' _ _ =>
      obtain ⟨-, rfl, rfl⟩ := hh.cancel hh' e
      exact ⟨rfl, rfl, rfl⟩
    | index hk' _ => exact absurd hk' hk
  | index hk hi =>
    cases h' with
    | bare hk' => exact absurd hk hk'
    | tag hk' _ _ _ _ => exact absurd hk hk'
    | index _ hi' =>
      obtain ⟨-, rfl, rfl⟩ := hi.cancel hi' e
      exact ⟨rfl, rfl, rfl⟩

/-- An item by the kind of the shape, behind its lead. -/
inductive Shape.BodyAt (s : Shape) (r : Reading) (parts : Parts) (u : Bytes) : Prop where
  | scalar {p : Primitive} (hk : s.kind = .scalar p) (h : s.ScalarAt r p parts u)
  | array (hk : s.kind = .list ∨ s.kind = .constructor) (h : s.ArrayAt r parts u)
  | map (hk : s.kind = .map) (h : s.MapAt r parts u)
  | union (hk : s.kind = .union) (h : s.UnionAt r parts u)

/-- An item of a kind without its tag: the lead is that of the kind. -/
theorem Shape.KindAt.behind_lead {parts : Parts} {u : Bytes} (h : s.KindAt r parts u) :
    ∃ lead w parts', u = lead ++ w ∧ s.Lead false lead ∧ s.BodyAt r parts' w ∧
      parts.content = parts'.content ∧ parts.style = parts'.style := by
  cases h with
  | scalar hk h => exact ⟨[], u, parts, rfl, .bare (by simp [hk]), .scalar hk h, rfl, rfl⟩
  | list hk h => exact ⟨[], u, parts, rfl, .bare (by simp [hk]), .array (.inl hk) h, rfl, rfl⟩
  | map hk h => exact ⟨[], u, parts, rfl, .bare (by simp [hk]), .map hk h, rfl, rfl⟩
  | union hk h => exact ⟨[], u, parts, rfl, .bare (by simp [hk]), .union hk h, rfl, rfl⟩
  | constructor hk h =>
    cases h with
    | @mk _ parts' front w hi _ ha =>
      exact ⟨front, w, parts', rfl, .index hk hi, .array (.inr hk) ha, rfl, rfl⟩

theorem Shape.ItemAt.behind_lead {t : TypeExpr} (hc : s.check t = .ok ()) {parts : Parts}
    {u : Bytes} (h : s.ItemAt r parts u) : ∃ tagged lead w parts', u = lead ++ w ∧
    s.Lead tagged lead ∧
      s.BodyAt r parts' w ∧ parts.content = parts'.content ∧
      parts.style = { parts'.style with tagged } := by
  cases h with
  | untagged _ hk =>
    obtain ⟨lead, w, parts', hu, hlead, hbody, hcontent, hstyle⟩ := hk.behind_lead
    refine ⟨false, lead, w, parts', hu, hlead, hbody, hcontent, ?_⟩
    rw [← hstyle]
  | absent _ _ _ hk =>
    obtain ⟨lead, w, parts', hu, hlead, hbody, hcontent, hstyle⟩ := hk.behind_lead
    refine ⟨false, lead, w, parts', hu, hlead, hbody, hcontent, ?_⟩
    rw [← hstyle]
  | tagged ht hh hm ha hk =>
    obtain ⟨front, w, parts', rfl, hlead, hbody, hcontent, hstyle⟩ := hk.behind_lead
    cases hlead with
    | bare hne =>
      refine ⟨true, _, w, parts', rfl, .tag hne ht hh hm ha, hbody, hcontent, ?_⟩
      rw [← hstyle]
    | index hcon _ =>
      rw [(check_constructor hc hcon).1] at ht
      cases ht

/-- **An item of a shape is its lead and what stands behind it**, and its style tells whether the
    lead is a tag. -/
theorem Shape.KeptAt.behind_lead {t : TypeExpr} (hc : s.check t = .ok ()) {parts : Parts}
    {u : Bytes} (h : s.KeptAt r parts u) : ∃ tagged lead w parts', u = lead ++ w ∧
    s.Lead tagged lead ∧
      s.BodyAt r parts' w ∧ parts.content = parts'.content ∧
      parts.style = { parts'.style with tagged } := by
  cases h with
  | kept _ hi =>
    have hitem := hi.behind_lead hc
    exact hitem
  | dropped _ hi => exact hi.behind_lead hc

/-! ## 4. Items -/

/-- Where the parts of an item of a shape stand, and of which type each is. -/
inductive Shape.Converts (s : Shape) (u : Bytes) : TypeExpr → Bytes → Prop where
  | part {tagged : Bool} {lead w : Bytes} {t : TypeExpr} {x : Bytes} (hu : u = lead ++ w)
      (hl : s.Lead tagged lead) (hx : s.PartIn w t x) : Converts s u t x
  | candidate {t : TypeExpr} (hk : s.kind = .union) (ht : t ∈ s.candidates) : Converts s u t u

/-- What an item of a shape passes over. -/
inductive Shape.PassesOver (s : Shape) (u x : Bytes) : Prop where
  | extra {tagged : Bool} {lead w : Bytes} (hu : u = lead ++ w) (hl : s.Lead tagged lead)
      (hx : s.ExtraIn w x)

theorem Shape.Converts.mem {u : Bytes} {t : TypeExpr} {x : Bytes} (h : s.Converts u t x) :
    t ∈ s.partTypes := by
  cases h with
  | part _ _ hx => exact hx.mem
  | candidate _ ht => exact Shape.candidate_mem ht

theorem Shape.PartIn.gathers {u : Bytes} {t : TypeExpr} {x : Bytes} (h : s.PartIn u t x) :
    s.layout ≠ none ∧ ∃ m xs, Gathers m xs u ∧ m ≠ .tag := by
  cases h with
  | item hl hu _ => exact ⟨by simp [hl], _, _, hu, by decide⟩
  | field hl hu _ => exact ⟨by simp [hl], _, _, hu, by decide⟩
  | key hl hu _ => exact ⟨by simp [hl], _, _, hu, by decide⟩
  | value hl hu _ => exact ⟨by simp [hl], _, _, hu, by decide⟩
  | keyed hl hu _ _ _ _ => exact ⟨by simp [hl], _, _, hu, by decide⟩

theorem Shape.ExtraIn.gathers {u x : Bytes} (h : s.ExtraIn u x) :
    s.layout ≠ none ∧ ∃ m xs, Gathers m xs u ∧ m ≠ .tag := by
  cases h with
  | element hl hu _ _ => exact ⟨by simp [hl], _, _, hu, by decide⟩
  | key hl hu _ _ => exact ⟨by simp [hl], _, _, hu, by decide⟩
  | value hl hu _ _ => exact ⟨by simp [hl], _, _, hu, by decide⟩

/-- A collection that was read behind the lead is the one that stands there. -/
theorem Shape.BodyAt.collection {t : TypeExpr} (hc : s.check t = .ok ()) (hl : s.layout ≠ none)
    {parts : Parts} {u : Bytes} (h : s.BodyAt r parts u) :
    (s.ArrayAt r parts u ∨ s.kind = .map ∧ s.MapAt r parts u) ∧
      ∃ head, StartsHead head u ∧ head.major ≠ .tag := by
  cases h with
  | scalar hk _ => exact absurd (check_scalar hc hk).1 hl
  | union hk _ => exact absurd (check_union_facets hc hk).1 hl
  | array _ h =>
    refine ⟨.inl h, ?_⟩
    obtain ⟨e, front, body, content, n, inner, rfl, ho, _⟩ := Shape.arrayAt_iff.mp h
    obtain ⟨head, hstart, hm⟩ := ho.startsHead body
    exact ⟨head, hstart, by simp [hm]⟩
  | map hk h =>
    refine ⟨.inr ⟨hk, h⟩, ?_⟩
    obtain ⟨e, front, body, content, n, inner, rfl, ho, _⟩ := Shape.mapAt_iff.mp h
    obtain ⟨head, hstart, hm⟩ := ho.startsHead body
    exact ⟨head, hstart, by simp [hm]⟩

theorem Shape.KindAt.reread (hk : s.kind ≠ .union) (he : s.extensible = false)
    (hlen : r.options.LengthsWithin r'.options) {parts : Parts} {u : Bytes} (h : s.KindAt r parts u)
    (hparts : ∀ lead w, u = lead ++ w → s.Lead false lead → ∀ t x z, s.PartIn w t x →
      r.PartAt t z x → r'.PartAt t z x) : s.KindAt r' parts u := by
  cases h with
  | scalar hk h => exact .scalar hk (h.mono hlen)
  | list hk h => exact .list hk (h.reread hlen he (hparts [] u rfl (.bare (by simp [hk]))))
  | map hk h => exact .map hk (h.reread hlen he (hparts [] u rfl (.bare (by simp [hk]))))
  | union hk' _ => exact absurd hk' hk
  | constructor hk h =>
    cases h with
    | mk hi hx ha =>
      exact .constructor hk (.mk hi hx (ha.reread hlen he (hparts _ _ rfl (.index hk hi))))

section items

variable {t : TypeExpr} (hc : s.check t = .ok ()) {parts : Parts} {u : Bytes}
include hc

/-- **Each part of an item was read**, of any kind but a union. -/
theorem Shape.KeptAt.converts (hk : s.kind ≠ .union) (h : s.KeptAt r parts u) {type : TypeExpr}
    {x : Bytes} (hx : s.Converts u type x) : ∃ z ∈ parts.content.parts, r.PartAt type z x := by
  obtain ⟨tagged, lead, w, parts', rfl, hlead, hbody, hcontent, -⟩ := h.behind_lead hc
  cases hx with
  | candidate hunion _ => exact absurd hunion hk
  | part hu hlead' hx =>
    obtain ⟨hl, m, xs, hgathers, hm⟩ := hx.gathers
    obtain ⟨head, hstart, rfl⟩ := hgathers.starts
    obtain ⟨hcollection, hstarts⟩ := hbody.collection hc hl
    obtain ⟨-, -, rfl⟩ := hlead.cancel hlead' hstarts ⟨head, hstart, hm⟩ hu
    rw [hcontent]
    rcases hcollection with h | ⟨hmap, h⟩
    · exact h.part_read hx
    · exact h.part_read (check_keys hc hmap) hx

/-- **What an item passes over nests as deep as is left at most.** -/
theorem Shape.KeptAt.passesOver (h : s.KeptAt r parts u) {x : Bytes} (hx : s.PassesOver u x) :
    Item (r.depth + 1) x := by
  obtain ⟨tagged, lead, w, parts', rfl, hlead, hbody, -, -⟩ := h.behind_lead hc
  cases hx with
  | extra hu hlead' hx =>
    obtain ⟨hl, m, xs, hgathers, hm⟩ := hx.gathers
    obtain ⟨head, hstart, rfl⟩ := hgathers.starts
    obtain ⟨hcollection, hstarts⟩ := hbody.collection hc hl
    obtain ⟨-, -, rfl⟩ := hlead.cancel hlead' hstarts ⟨head, hstart, hm⟩ hu
    rcases hcollection with h | ⟨-, h⟩
    · exact h.extra_item hx
    · exact h.extra_item hx

theorem Shape.ItemAt.reread (hk : s.kind ≠ .union) (he : s.extensible = false)
    (hlen : r.options.LengthsWithin r'.options) (h : s.ItemAt r parts u)
    (hparts : ∀ type x z, s.Converts u type x → r.PartAt type z x → r'.PartAt type z x) :
    s.ItemAt r' parts u := by
  cases h with
  | untagged ht h =>
    exact .untagged ht (h.reread hk he hlen fun lead w hu hl t x z hx =>
      hparts t x z (.part hu hl hx))
  | absent ht hh hm h =>
    refine .absent ht hh hm (h.reread hk he hlen fun lead w hu hl t x z hx => ?_)
    exact hparts t x z (.part hu hl hx)
  | tagged ht hh hm ha h =>
    refine .tagged ht hh hm ha (h.reread hk he hlen fun lead w hu hl t x z hx => hparts t x z ?_)
    cases hl with
    | bare hne =>
      obtain rfl : _ = w := hu
      exact .part rfl (.tag hne ht hh hm ha) hx
    | index hcon _ =>
      rw [(check_constructor hc hcon).1] at ht
      cases ht

/-- **An item whose parts are read again is read again**, of any kind but a union and if nothing may
    be passed over: the nesting that is left matters to the parts alone. -/
theorem Shape.KeptAt.reread (hk : s.kind ≠ .union) (he : s.extensible = false)
    (hlen : r.options.LengthsWithin r'.options) (h : s.KeptAt r parts u)
    (hparts : ∀ type x z, s.Converts u type x → r.PartAt type z x → r'.PartAt type z x) :
    s.KeptAt r' parts u := by
  cases h with
  | kept hp hi => exact .kept hp (hi.reread hc hk he hlen hparts)
  | dropped hp hi => exact .dropped hp (hi.reread hc hk he hlen hparts)

end items

end CborSchema
