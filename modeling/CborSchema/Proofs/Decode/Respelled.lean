import CborSchema.Proofs.Decode.Alike
import CborSchema.Proofs.Decode.Bare
import CborSchema.Proofs.Decode.Trees

/-!
# Items read in another spelling

What is read of an item does not depend on how its tree is spelled.

* `Reading.Respelled` -- two spellings of one tree, within the limits of a reading;
* `Reading.Stable` -- a part is read of either spelling, up to the bytes kept and the framing;
* `ScalarAt.respelled`, `LiteralAt.respelled`, `KeyAt.respelled`, `IndexAt.respelled` -- what has no
  parts is read of either spelling;
* `ArrayHolds.respelled`, `MapHolds.respelled`, `Opens.respelled` -- and so are elements, entries
  and the heads in front of them;
* `KeptAt.respelled` -- **and so is an item of any kind**, with its tag.

A shape takes either framing here: where it asks for one, spellings of one tree are told apart.
-/

namespace CborSchema

open Decoder

variable {s : Shape} {r : Reading} {h : Head} {front u w : Bytes}

/-- Two spellings of one tree, within the limit of a reading on the elements of a collection. -/
abbrev Reading.Respelled (r : Reading) (u w : Bytes) : Prop :=
  CborSchema.Respelled r.options.maxCollectionLength u w

/-- A part that is read of one spelling of an item is read of any other, up to the bytes kept and
    the framing. -/
def Reading.Stable (r : Reading) (t : TypeExpr) : Prop :=
  ∀ v u w, r.PartAt t v u → r.Respelled u w → ∃ v', r.PartAt t v' w ∧ v'.bare = v.bare

/-! ## 1. Scalars and literals -/

/-- A payload that fits a limit is held within it. -/
theorem Head.Payload.within {max max' : UInt64} {payload : Bytes} (hp : h.Payload max payload u)
    (hmax : payload.length ≤ max'.toNat) : h.Payload max' payload u := by
  cases hp with
  | definite hn hl _ => exact .definite hn hl hmax
  | indefinite hn hc _ => exact .indefinite hn hc hmax

theorem requireFraming_either (hs : s.length = .either) (indefinite : Bool) :
    s.requireFraming indefinite = .ok () := by
  unfold Shape.requireFraming
  rw [hs]

theorem Shape.PayloadAfter.respelled (hs : s.length = .either) {m : Major}
    (hm : m = .bytes ∨ m = .text) {payload : Bytes} (hp : s.PayloadAfter r m h payload u)
    (hh : h.Spelled front) (hr : r.Respelled (front ++ u) w) :
    ∃ (h' : Head) (front' w' : Bytes), w = front' ++ w' ∧
      h'.Spelled front' ∧ s.PayloadAfter r m h' payload w' := by
  obtain ⟨payload', h', front', w', rfl, hh', hmajor, hu, hw⟩ := hr.string hh (by rwa [hp.major])
  obtain ⟨rfl, _⟩ := hp.held.cancel (u := []) hu rfl
  exact ⟨h', front', w', rfl, hh', hmajor.trans hp.major, requireFraming_either hs _,
    hw.within hp.held.length_le, hp.size⟩

theorem Shape.ScalarAfter.respelled (hs : s.length = .either) {p : Primitive} {x : Scalar}
    (hx : s.ScalarAfter r h p x u) (hh : h.Spelled front) (hr : r.Respelled (front ++ u) w) :
    ∃ (h' : Head) (front' w' : Bytes), w = front' ++ w' ∧ h'.Spelled front' ∧
      s.ScalarAfter r h' p x w' := by
  cases hx with
  | bool hb => exact ⟨h, front, [], hr.simple hh (Head.truth_plain hb).1, hh, .bool hb⟩
  | null hn => exact ⟨h, front, [], hr.simple hh (Head.null_plain hn).1, hh, .null hn⟩
  | uint hn =>
    obtain ⟨_, h', hh', hmajor, harg⟩ := hr.number hh (.inl (Head.uint_plain hn))
    refine ⟨h', w, [], (List.append_nil w).symm, hh', .uint ?_⟩
    rw [← hn, Head.uint, Head.uint, hmajor, harg]
  | int hn =>
    obtain ⟨_, h', hh', hmajor, harg⟩ := hr.number hh (Head.int_plain hn)
    refine ⟨h', w, [], (List.append_nil w).symm, hh', .int ?_⟩
    rw [← hn, Head.int, Head.int, hmajor, harg]
  | bytes hp =>
    obtain ⟨h', front', w', rfl, hh', hp'⟩ := hp.respelled hs (.inl rfl) hh hr
    exact ⟨h', front', w', rfl, hh', .bytes hp'⟩
  | embedded hp =>
    obtain ⟨h', front', w', rfl, hh', hp'⟩ := hp.respelled hs (.inl rfl) hh hr
    exact ⟨h', front', w', rfl, hh', .embedded hp'⟩
  | text hp ht =>
    obtain ⟨h', front', w', rfl, hh', hp'⟩ := hp.respelled hs (.inr rfl) hh hr
    exact ⟨h', front', w', rfl, hh', .text hp' ht⟩

/-- **A scalar is read of either spelling.** -/
theorem Shape.ScalarAt.respelled (hs : s.length = .either) {p : Primitive} {parts : Parts}
    (hx : s.ScalarAt r p parts u) (hr : r.Respelled u w) :
    ∃ parts', s.ScalarAt r p parts' w ∧ parts'.bare = parts.bare := by
  cases hx with
  | mk hh hx =>
    obtain ⟨h', front', w', rfl, hh', hx'⟩ := hx.respelled hs hh hr
    exact ⟨_, .mk hh' hx', rfl⟩

/-- **A literal is read of either spelling.** -/
theorem LiteralAt.respelled {name : String} {max max' : UInt64} {l : Literal}
    (hl : LiteralAt name max l u) (hr : CborSchema.Respelled max' u w) :
    LiteralAt name max l w := by
  cases hl with
  | mk hh hl =>
    cases hl with
    | int hm ha =>
      rename_i h front n
      have hnumber : h.major = .unsigned ∨ h.major = .negative := by
        split at hm
        · exact .inl hm
        · exact .inr hm
      obtain ⟨_, h', hh', hmajor, harg⟩ := hr.number hh hnumber
      rw [← List.append_nil w]
      exact .mk hh' (.int (hmajor.trans hm) (harg.trans ha))
    | bool hb =>
      rw [hr.simple hh (Head.truth_plain hb).1]
      exact .mk hh (.bool hb)
    | text hm hp =>
      obtain ⟨payload, h', front', w', rfl, hh', hmajor, hu, hw⟩ := hr.string hh (.inr hm)
      obtain ⟨rfl, _⟩ := hp.cancel (u := []) hu rfl
      exact .mk hh' (.text (hmajor.trans hm) (hw.within hp.length_le))

/-! ## 2. Elements -/

theorem Rows.respelled_uncons {max : UInt64} {k : Nat} {x : Bytes} (hx : IsItem x)
    (h : Rows (CborSchema.Respelled max) k (x ++ u) w) : ∃ j y w', k = j + 1 ∧ w = y ++ w' ∧
      CborSchema.Respelled max x y ∧ Rows (CborSchema.Respelled max) j u w' :=
  h.uncons (fun _ _ hr => hr.left) hx

theorem Rows.respelled_nil {max : UInt64} {k : Nat} (h : Rows (CborSchema.Respelled max) k [] w) :
    w = [] := (h.of_nil fun _ _ hr => hr.left).2

/-- Items that are passed over are so in either spelling. -/
theorem InRow.respelled {max : UInt64} {l j k : Nat} (hs : InRow (Item l) j u)
    (h : Rows (CborSchema.Respelled max) k u w) : InRow (Item l) j w :=
  (h.inRow (fun _ _ hr => hr.left) (fun _ hx => hx.isItem) (fun _ _ hx hr => hr.item hx) hs).2

theorem SlotAt.respelled {type : TypeExpr} (hr : r.Stable type) {presence : Presence}
    {slot : Option Value} (h : SlotAt r type presence slot u) (hu : r.Respelled u w) :
    ∃ slot', SlotAt r type presence slot' w ∧ slot'.map Value.bare = slot.map Value.bare := by
  cases h with
  | null hp =>
    rw [hu.null]
    exact ⟨none, .null hp, rfl⟩
  | value hv hn =>
    obtain ⟨v', hv', hbare⟩ := hr _ _ _ hv hu
    refine ⟨some v', .value hv' fun hp hhead => ?_, congrArg some hbare⟩
    have hnull : w = [nullByte] := hv'.item.eq_null hhead
    rw [hnull] at hu
    refine hn hp ?_
    rw [hu.symm.null]
    rfl

/-- Values in a row are read of either spelling. -/
theorem Row.respelled {item : TypeExpr} (hr : r.Stable item) {vs : List Value}
    {inner inner' : Bytes} {k : Nat} (h : Row (r.PartAt item) vs inner)
    (hrows : Rows r.Respelled k inner inner') :
    ∃ vs', Row (r.PartAt item) vs' inner' ∧ vs'.map Value.bare = vs.map Value.bare := by
  induction h generalizing k inner' with
  | nil =>
    rw [hrows.respelled_nil]
    exact ⟨[], .nil, rfl⟩
  | cons hx _ ih =>
    obtain ⟨_, y, rest, _, rfl, hxy, hrest⟩ := hrows.respelled_uncons hx.item
    obtain ⟨v', hv', hbare⟩ := hr _ _ _ hx hxy
    obtain ⟨vs', hvs', hbares⟩ := ih hrest
    exact ⟨v' :: vs', .cons hv' hvs', by rw [List.map_cons, List.map_cons, hbare, hbares]⟩

/-- **Elements laid out over fields are so in either spelling.** -/
theorem Shape.Laid.respelled {fields : List Field} (hr : ∀ f ∈ fields, ∀ type presence,
    f.body = .value type presence → r.Stable type) {slots : List (Option Value)} {n k : Nat}
    {inner inner' : Bytes} (h : s.Laid r fields slots n inner)
    (hrows : Rows r.Respelled k inner inner') : ∃ slots', s.Laid r fields slots' n inner' ∧
      slots'.map (Option.map Value.bare) = slots.map (Option.map Value.bare) := by
  induction h generalizing k inner' with
  | past hx hk => exact ⟨[], .past (hx.respelled hrows) hk, rfl⟩
  | literal hf hx _ ih =>
    obtain ⟨_, hr⟩ := List.forall_mem_cons.mp hr
    obtain ⟨_, y, rest, _, rfl, hxy, hrest⟩ := hrows.respelled_uncons hx.isItem
    obtain ⟨slots', hlaid, hbares⟩ := ih hr hrest
    exact ⟨slots', .literal hf (hx.respelled hxy) hlaid, hbares⟩
  | value hf hx _ ih =>
    obtain ⟨hfirst, hr⟩ := List.forall_mem_cons.mp hr
    obtain ⟨_, y, rest, _, rfl, hxy, hrest⟩ := hrows.respelled_uncons hx.isItem
    obtain ⟨slot', hslot, hbare⟩ := hx.respelled (hfirst _ _ hf) hxy
    obtain ⟨slots', hlaid, hbares⟩ := ih hr hrest
    refine ⟨slot' :: slots', .value hf hslot hlaid, ?_⟩
    rw [List.map_cons, List.map_cons, hbare, hbares]
  | absent hf _ ih =>
    obtain ⟨_, hr⟩ := List.forall_mem_cons.mp hr
    obtain rfl := hrows.respelled_nil
    obtain ⟨slots', hlaid, hbares⟩ := ih hr hrows
    exact ⟨none :: slots', .absent hf hlaid, congrArg (List.cons none) hbares⟩

theorem Shape.ArrayHolds.respelled (hr : ∀ t ∈ s.partTypes, r.Stable t) {content : Content Value}
    {n k : Nat} {inner inner' : Bytes} (h : s.ArrayHolds r content n inner)
    (hrows : Rows r.Respelled k inner inner') : ∃ content', s.ArrayHolds r content' n inner' ∧
      content'.map Value.bare = content.map Value.bare := by
  cases h with
  | items hl hv =>
    obtain ⟨vs', hvs', hbares⟩ := hv.respelled (hr _ (Shape.item_mem hl)) hrows
    rename_i item vs
    have hlen : vs'.length = vs.length := by simpa using congrArg List.length hbares
    rw [← hlen]
    exact ⟨.items vs', .items hl hvs', congrArg Content.items hbares⟩
  | fields hl hs =>
    rename_i fields slots
    have hfields : ∀ f ∈ fields, ∀ type presence, f.body = .value type presence → r.Stable type :=
      fun f hf type presence hb => hr _ (Shape.field_mem hl hf hb)
    obtain ⟨slots', hlaid, hbares⟩ := hs.respelled hfields hrows
    exact ⟨.fields slots', .fields hl hlaid, congrArg Content.fields hbares⟩

/-! ## 3. Entries -/

section entries

variable {key value : TypeExpr}

theorem EntryAt.respelled (hk : r.Stable key) (hv : r.Stable value) {e : Bytes × Value × Value}
    {x : Bytes} {k : Nat} (h : EntryAt r key value e x) (hrows : Rows r.Respelled k (x ++ u) w) :
    ∃ j y w' e', w = y ++ w' ∧ EntryAt r key value e' y ∧ bareEntry e'.2 = bareEntry e.2 ∧
      Rows r.Respelled j u w' := by
  obtain ⟨z, rfl, hkey, hvalue⟩ := h
  rw [List.append_assoc] at hrows
  obtain ⟨_, y, rest, _, rfl, hxy, hrest⟩ := hrows.respelled_uncons hkey.item
  obtain ⟨j, y', rest', _, rfl, hxy', hrest'⟩ := hrest.respelled_uncons hvalue.item
  obtain ⟨k', hk', hkbare⟩ := hk _ _ _ hkey hxy
  obtain ⟨v', hv', hvbare⟩ := hv _ _ _ hvalue hxy'
  exact ⟨j, y ++ y', rest', (y, k', v'), by rw [List.append_assoc], ⟨y', rfl, hk', hv'⟩,
    Prod.ext hkbare hvbare, hrest'⟩

theorem Row.entries_respelled (hk : r.Stable key) (hv : r.Stable value)
    {es : List (Bytes × Value × Value)} {inner inner' : Bytes} {k : Nat}
    (h : Row (EntryAt r key value) es inner) (hrows : Rows r.Respelled k inner inner') :
    ∃ es', Row (EntryAt r key value) es' inner' ∧
      (es'.map fun e => bareEntry e.2) = es.map fun e => bareEntry e.2 := by
  induction h generalizing k inner' with
  | nil =>
    rw [hrows.respelled_nil]
    exact ⟨[], .nil, rfl⟩
  | cons hx _ ih =>
    obtain ⟨j, y, rest, e', rfl, he', hbare, hrest⟩ := hx.respelled hk hv hrows
    obtain ⟨es', hes', hbares⟩ := ih hrest
    exact ⟨e' :: es', .cons he' hes', by rw [List.map_cons, List.map_cons, hbare, hbares]⟩

/-- The keys of the entries of a content differ, bare as they are. -/
def Content.KeysApart (content : Content Value) : Prop :=
  ∀ es, content = .entries es → es.Pairwise fun e e' => e.1.bare ≠ e'.1.bare

/-- **Keys that differ are spelled by different bytes.** -/
theorem Row.keys_nodup {es : List (Bytes × Value × Value)} {inner : Bytes}
    (h : Row (EntryAt r key value) es inner)
    (hapart : es.Pairwise fun e e' => e.2.1.bare ≠ e'.2.1.bare) : (es.map Prod.fst).Nodup := by
  rw [List.Nodup, List.pairwise_map]
  refine hapart.imp_of_mem fun {e e'} he he' hne hbytes => hne ?_
  obtain ⟨_, _, _, hkey, _⟩ := h.exists_of_mem he
  obtain ⟨_, _, _, hkey', _⟩ := h.exists_of_mem he'
  rw [hbytes] at hkey
  rw [hkey.reads.unique hkey'.reads]

end entries

/-! ## 4. Fields under keys -/

/-- **A key is the same key in either spelling.** -/
theorem KeyAt.respelled {key : KeyItem} {max : UInt64} (h : KeyAt r key u)
    (hr : CborSchema.Respelled max u w) : KeyAt r key w := by
  have hr' := hr
  rw [← List.append_nil u] at hr'
  cases h with
  | unsigned hh hm hn =>
    obtain ⟨_, h', hh', hmajor, harg⟩ := hr'.number hh (.inl hm)
    exact .unsigned hh' (hmajor.trans hm) (harg.trans hn)
  | negative hh hm hn =>
    obtain ⟨_, h', hh', hmajor, harg⟩ := hr'.number hh (.inr hm)
    exact .negative hh' (hmajor.trans hm) (harg.trans hn)
  | text hh hm hp ht =>
    obtain ⟨payload, h', front', w', rfl, hh', hmajor, hu, hw⟩ := hr.string hh (.inr hm)
    obtain ⟨rfl, _⟩ := hp.cancel (u := []) hu rfl
    exact .text hh' (hmajor.trans hm) (hw.within hp.length_le) ht
  | other hh hm hi =>
    obtain ⟨h', hh', hmajor⟩ := hr.startsHead hh
    rw [← hmajor] at hm ⊢
    exact .other hh' hm (hr.item hi)

/-- The fields that were found, with what was read under their keys bare. -/
def bareFound (found : Found) : Found := found.map fun e => (e.1, e.2.map Value.bare)

theorem keys_bareFound (found : Found) : (bareFound found).map Prod.fst = found.map Prod.fst := by
  rw [bareFound, List.map_map]
  rfl

theorem keys_of_bareFound {found found' : Found} (h : bareFound found' = bareFound found) :
    found'.map Prod.fst = found.map Prod.fst := by
  rw [← keys_bareFound found', h, keys_bareFound]

theorem any_key_bareFound (found : Found) (key : FieldKey) :
    ((bareFound found).any fun e => e.1 == key) = found.any fun e => e.1 == key := by
  rw [bareFound, List.any_map]
  rfl

theorem checkPresent_bareFound (name : String) (found : Found) (fields : List Field) :
    checkPresent name (bareFound found) fields = checkPresent name found fields := by
  induction fields with
  | nil => rfl
  | cons f fs ih => rw [checkPresent, checkPresent, any_key_bareFound, ih]

theorem lookup_bareFound (found : Found) (key : FieldKey) :
    ((bareFound found).lookup key).join = (found.lookup key).join.map Value.bare := by
  induction found with
  | nil => rfl
  | cons e found ih =>
    rw [bareFound, List.map_cons, List.lookup_cons, List.lookup_cons]
    split
    · rfl
    · exact ih

theorem slotsOf_bareFound (fields : List Field) (found : Found) :
    slotsOf fields (bareFound found) = (slotsOf fields found).map (Option.map Value.bare) := by
  rw [slotsOf, slotsOf, List.map_map]
  exact List.map_congr_left fun f _ => lookup_bareFound found f.key

theorem KeyedStep.respelled {fields : List Field} (hr : ∀ f ∈ fields, ∀ type presence,
    f.body = .value type presence → r.Stable type) {found found' found₁ : Found}
      {x : Bytes} {k : Nat}
    (h : KeyedStep s r fields found x found') (hfound : bareFound found₁ = bareFound found)
    (hrows : Rows r.Respelled k (x ++ u) w) : ∃ j y w' found₁', w = y ++ w' ∧
      KeyedStep s r fields found₁ y found₁' ∧ bareFound found₁' = bareFound found' ∧
      Rows r.Respelled j u w' := by
  have hkeys := keys_of_bareFound hfound
  cases h with
  | unknown hk hf he hv =>
    rw [List.append_assoc] at hrows
    obtain ⟨_, y, rest, _, rfl, hxy, hrest⟩ := hrows.respelled_uncons hk.isItem
    obtain ⟨j, y', rest', _, rfl, hxy', hrest'⟩ := hrest.respelled_uncons hv.isItem
    exact ⟨j, y ++ y', rest', found₁, by rw [List.append_assoc],
      .unknown (hk.respelled hxy) hf he (hxy'.item hv), hfound, hrest'⟩
  | literal hk hf hnew hb hl =>
    rw [List.append_assoc] at hrows
    obtain ⟨_, y, rest, _, rfl, hxy, hrest⟩ := hrows.respelled_uncons hk.isItem
    obtain ⟨j, y', rest', _, rfl, hxy', hrest'⟩ := hrest.respelled_uncons hl.isItem
    exact ⟨j, y ++ y', rest', _, by rw [List.append_assoc],
      .literal (hk.respelled hxy) hf (by rwa [hkeys]) hb (hl.respelled hxy'),
      congrArg (List.cons _) hfound, hrest'⟩
  | value hk hf hnew hb hv =>
    rename_i f type presence _ _ _
    rw [List.append_assoc] at hrows
    obtain ⟨_, y, rest, _, rfl, hxy, hrest⟩ := hrows.respelled_uncons hk.isItem
    obtain ⟨j, y', rest', _, rfl, hxy', hrest'⟩ := hrest.respelled_uncons hv.item
    obtain ⟨v', hv', hbare⟩ := hr f (List.mem_of_find?_eq_some hf) _ _ hb _ _ _ hv hxy'
    refine ⟨j, y ++ y', rest', (f.key, some v') :: found₁, by rw [List.append_assoc],
      .value (hk.respelled hxy) hf (by rwa [hkeys]) hb hv', ?_, hrest'⟩
    rw [bareFound, bareFound, List.map_cons, List.map_cons, Option.map_some, Option.map_some, hbare]
    exact congrArg (List.cons _) hfound

theorem Steps.keyed_respelled {fields : List Field} (hr : ∀ f ∈ fields, ∀ type presence,
    f.body = .value type presence → r.Stable type) {found found' found₁ : Found}
      {inner inner' : Bytes}
    {n k : Nat} (h : Steps (KeyedStep s r fields) n found inner found')
    (hfound : bareFound found₁ = bareFound found) (hrows : Rows r.Respelled k inner inner') :
    ∃ found₁', Steps (KeyedStep s r fields) n found₁ inner' found₁' ∧
      bareFound found₁' = bareFound found' := by
  induction h generalizing k inner' found₁ with
  | nil =>
    rw [hrows.respelled_nil]
    exact ⟨found₁, .nil, hfound⟩
  | cons hx _ ih =>
    obtain ⟨j, y, rest, found₂, rfl, hstep, hfound₂, hrest⟩ := hx.respelled hr hfound hrows
    obtain ⟨found₁', hsteps, hbare⟩ := ih hfound₂ hrest
    exact ⟨found₁', .cons hstep hsteps, hbare⟩

theorem Shape.MapHolds.respelled (hr : ∀ t ∈ s.partTypes, r.Stable t) {content : Content Value}
    (hapart : content.KeysApart) {n k : Nat} {inner inner' : Bytes}
    (h : s.MapHolds r content n inner) (hrows : Rows r.Respelled k inner inner') :
    ∃ content', s.MapHolds r content' n inner' ∧
      content'.map Value.bare = content.map Value.bare := by
  cases h with
  | entries hl hes hkeys =>
    rename_i key value es
    obtain ⟨hkey, hvalue⟩ := Shape.entry_mem hl
    obtain ⟨es', hes', hbares⟩ := hes.entries_respelled (hr _ hkey) (hr _ hvalue) hrows
    have hlen : es'.length = es.length := by simpa using congrArg List.length hbares
    have hpair : es'.Pairwise fun e e' => e.2.1.bare ≠ e'.2.1.bare := by
      have hpair := hapart _ rfl
      rw [List.pairwise_map] at hpair
      have himages : (es.map fun e => bareEntry e.2).Pairwise fun e e' => e.1 ≠ e'.1 :=
        List.pairwise_map.mpr hpair
      rw [← hbares, List.pairwise_map] at himages
      exact himages
    rw [← hlen]
    refine ⟨_, .entries hl hes' (hes'.keys_nodup hpair), congrArg Content.entries ?_⟩
    rw [List.map_map, List.map_map]
    exact hbares
  | fields hl hs hc =>
    rename_i fields found
    have hfields : ∀ f ∈ fields, ∀ type presence, f.body = .value type presence → r.Stable type :=
      fun f hf type presence hb => hr _ (Shape.field_mem hl hf hb)
    obtain ⟨found', hs', hbare⟩ := Steps.keyed_respelled hfields hs rfl hrows
    rw [← checkPresent_bareFound, ← hbare, checkPresent_bareFound] at hc
    refine ⟨_, .fields hl hs' hc, congrArg Content.fields ?_⟩
    rw [← slotsOf_bareFound, hbare, slotsOf_bareFound]

/-! ## 5. Heads of collections and constructors -/

/-- **A collection that is spelled otherwise starts as one**, and has as many elements. -/
theorem Shape.Opens.respelled (hs : s.length = .either) {m : Major} {width : Nat}
    (hm : m.perElement = some width) {e : Pending} {n : Nat} {body inner : Bytes}
    (ho : s.Opens r m e front) (hb : e.Body n inner body) (hrow : InRow IsItem (n * width) inner)
    (hr : r.Respelled (front ++ body) w) : ∃ e' front' body' inner', w = front' ++ body' ∧
      s.Opens r m e' front' ∧ e'.Body n inner' body' ∧
        Rows r.Respelled (n * width) inner inner' := by
  obtain ⟨h, hh, rfl, rfl, _, _⟩ := Shape.opens_iff.mp ho
  obtain ⟨h', front', body', rfl, hh', hmajor, k, x, inner', hx, hb', hmax, hrows⟩ :=
    hr.collection hh hm
  obtain rfl := hb.inner_unique hx
  obtain ⟨hcount, _⟩ := hrows.inRow (fun _ _ hr => hr.left) (fun _ hx => hx)
    (fun _ _ _ hr => hr.right) hrow
  have hpos := Nat.pos_of_ne_zero (Major.perElement_ne_zero hm).1
  obtain rfl := Nat.eq_of_mul_eq_mul_right hpos hcount
  refine ⟨h'.pending, front', body', inner', rfl, Shape.opens_iff.mpr ⟨h', hh', hmajor, rfl,
    requireFraming_either hs _, fun n' hn' => ?_⟩, hb', hrows⟩
  rw [Head.pending, hn'] at hb'
  cases hb'
  exact hmax

theorem collected_bare {content content' : Content Value} {e e' : Pending}
    (h : content'.map Value.bare = content.map Value.bare) :
    (s.collected content' e').bare = (s.collected content e).bare := by
  rw [Parts.bare, Parts.bare, Shape.collected, Shape.collected, h]
  rfl

/-- **An array is read of either spelling.** -/
theorem Shape.ArrayAt.respelled (hs : s.length = .either) (hr : ∀ t ∈ s.partTypes, r.Stable t)
    {parts : Parts} (h : s.ArrayAt r parts u) (hu : r.Respelled u w) :
    ∃ parts', s.ArrayAt r parts' w ∧ parts'.bare = parts.bare := by
  obtain ⟨e, front, body, content, n, inner, rfl, ho, hb, hc, rfl⟩ := Shape.arrayAt_iff.mp h
  have hrow := hc.inRow
  rw [← Nat.mul_one n] at hrow
  obtain ⟨e', front', body', inner', rfl, ho', hb', hrows⟩ := ho.respelled hs rfl hb hrow hu
  obtain ⟨content', hc', hbare⟩ := hc.respelled hr hrows
  exact ⟨_, Shape.arrayAt_iff.mpr ⟨_, _, _, _, _, _, rfl, ho', hb', hc', rfl⟩, collected_bare hbare⟩

/-- **A map is read of either spelling.** -/
theorem Shape.MapAt.respelled (hs : s.length = .either) (hr : ∀ t ∈ s.partTypes, r.Stable t)
    {parts : Parts} (hapart : parts.content.KeysApart) (h : s.MapAt r parts u)
    (hu : r.Respelled u w) : ∃ parts', s.MapAt r parts' w ∧ parts'.bare = parts.bare := by
  obtain ⟨e, front, body, content, n, inner, rfl, ho, hb, hc, rfl⟩ := Shape.mapAt_iff.mp h
  obtain ⟨e', front', body', inner', rfl, ho', hb', hrows⟩ := ho.respelled hs rfl hb hc.inRow hu
  obtain ⟨content', hc', hbare⟩ := hc.respelled hr hapart hrows
  exact ⟨_, Shape.mapAt_iff.mpr ⟨_, _, _, _, _, _, rfl, ho', hb', hc', rfl⟩, collected_bare hbare⟩

/-- **The index of a constructor is the same in either spelling.** -/
theorem IndexAt.respelled {index : UInt64} {max : UInt64} (hi : IndexAt index front)
    (hr : CborSchema.Respelled max (front ++ u) w) : ∃ front' w', w = front' ++ w' ∧
      IndexAt index front' ∧ CborSchema.Respelled max u w' := by
  cases hi with
  | short hh hm hi =>
    obtain ⟨h', front', w', rfl, hh', hm', harg, hcontent⟩ := hr.tagged hh hm
    exact ⟨front', w', rfl, .short hh' hm' (by rwa [harg]), hcontent⟩
  | pair hh hm ht hp hpm hpa hi him hia =>
    rename_i h p i first second third
    obtain ⟨number, harg⟩ := Option.ne_none_iff_exists'.mp (hh.arg_ne_none (by rw [hm]; rfl))
    have hgeneral : h.arg = some Tag.general := by
      rw [harg, Option.getD_some] at ht
      rw [harg, ht]
    rw [List.append_assoc, List.append_assoc] at hr
    obtain ⟨h', p', i', front', second', third', w', rfl, hh', hm', harg', hp', hpm',
      hpa', hi', him',
      hia', hcontent⟩ := hr.pair hh hm hgeneral hp hpm hpa hi him hia
    refine ⟨front' ++ (second' ++ third'), w', by simp only [List.append_assoc], ?_, hcontent⟩
    exact .pair hh' hm' (by rwa [harg']) hp' hpm' hpa' hi' him' hia'

theorem Shape.ConstructorAt.respelled (hs : s.length = .either) (hr : ∀ t ∈ s.partTypes, r.Stable t)
    {parts : Parts} (h : s.ConstructorAt r parts u) (hu : r.Respelled u w) :
    ∃ parts', s.ConstructorAt r parts' w ∧ parts'.bare = parts.bare := by
  cases h with
  | mk hi hc ha =>
    rename_i index parts front body
    obtain ⟨front', body', rfl, hi', hbody⟩ := hi.respelled hu
    obtain ⟨parts', ha', hbare⟩ := ha.respelled hs hr hbody
    refine ⟨_, .mk hi' hc ha', ?_⟩
    show { parts'.bare with alternative := some index } =
      { parts.bare with alternative := some index }
    rw [hbare]

/-! ## 6. Unions -/

/-- **The candidate that takes an item takes it in either spelling.** A candidate that refuses one
    spelling refuses the other, and not for a faulty declaration. -/
theorem Wins.respelled (hsound : r.Sound) {ts : List TypeExpr} (hr : ∀ t ∈ ts, r.Stable t)
    (hfault : ∀ t ∈ ts, ∀ x, IsItem x → ∀ e, ((r.part t).whole x).result = .error e →
      ∀ f, e ≠ .config f) {v : Value} (h : Wins r u ts v) (hu : r.Respelled u w) :
    ∃ v', Wins r w ts v' ∧ v'.bare = v.bare := by
  induction h with
  | here hv =>
    obtain ⟨hstable, _⟩ := List.forall_mem_cons.mp hr
    obtain ⟨v', hv', hbare⟩ := hstable _ _ _ ((hsound.partAt _).whole hv).2 hu
    exact ⟨v', .here hv'.reads.whole, hbare⟩
  | later he hc hw ih =>
    rename_i t ts _ _
    obtain ⟨hstable, hr⟩ := List.forall_mem_cons.mp hr
    obtain ⟨hplain, hfault⟩ := List.forall_mem_cons.mp hfault
    obtain ⟨v', hwins, hbare⟩ := ih hr hfault
    cases hx : ((r.part t).whole w).result with
    | ok x =>
      obtain ⟨x', hx', _⟩ := hstable _ _ _ ((hsound.partAt t).whole hx).2 hu.symm
      rw [hx'.reads.whole] at he
      cases he
    | error e' => exact ⟨v', .later hx (hplain w hu.right e' hx) hwins, hbare⟩

/-- A shape that takes either framing, read with parts that are read of either spelling. -/
structure Shape.Indifferent (s : Shape) (r : Reading) : Prop where
  framing : s.length = .either
  sound : r.Sound
  stable : ∀ t ∈ s.partTypes, r.Stable t
  plain : ∀ t ∈ s.candidates, ∀ x, IsItem x → ∀ e, ((r.part t).whole x).result = .error e →
    ∀ f, e ≠ .config f

theorem Shape.UnionAt.respelled (hs : s.Indifferent r) {parts : Parts} (h : s.UnionAt r parts u)
    (hu : r.Respelled u w) : ∃ parts', s.UnionAt r parts' w ∧ parts'.bare = parts.bare := by
  cases h with
  | mk hi hw =>
    have hcandidates := fun t ht => hs.stable t (Shape.candidate_mem ht)
    obtain ⟨v', hw', hbare⟩ := hw.respelled hs.sound hcandidates hs.plain hu
    refine ⟨_, .mk (hu.item hi) hw', ?_⟩
    rw [Parts.bare, Parts.bare, Content.map, Content.map, hbare]

/-! ## 7. Items of a shape -/

/-- **An item of any kind is read of either spelling.** -/
theorem Shape.KindAt.respelled (hs : s.Indifferent r) {parts : Parts}
    (hapart : parts.content.KeysApart) (h : s.KindAt r parts u) (hu : r.Respelled u w) :
    ∃ parts', s.KindAt r parts' w ∧ parts'.bare = parts.bare := by
  cases h with
  | scalar hk h =>
    obtain ⟨parts', h', hbare⟩ := h.respelled hs.framing hu
    exact ⟨parts', .scalar hk h', hbare⟩
  | list hk h =>
    obtain ⟨parts', h', hbare⟩ := h.respelled hs.framing hs.stable hu
    exact ⟨parts', .list hk h', hbare⟩
  | map hk h =>
    obtain ⟨parts', h', hbare⟩ := h.respelled hs.framing hs.stable hapart hu
    exact ⟨parts', .map hk h', hbare⟩
  | constructor hk h =>
    obtain ⟨parts', h', hbare⟩ := h.respelled hs.framing hs.stable hu
    exact ⟨parts', .constructor hk h', hbare⟩
  | union hk h =>
    obtain ⟨parts', h', hbare⟩ := h.respelled hs hu
    exact ⟨parts', .union hk h', hbare⟩

theorem bare_withTagged {p p' : Parts} (h : p'.bare = p.bare) (tagged : Bool) :
    ({ p' with style := { p'.style with tagged } } : Parts).bare =
      ({ p with style := { p.style with tagged } } : Parts).bare := by
  show { p'.bare with style := { p'.bare.style with tagged } } =
    { p.bare with style := { p.bare.style with tagged } }
  rw [h]

theorem Shape.ItemAt.respelled (hs : s.Indifferent r) {parts : Parts}
    (hapart : parts.content.KeysApart) (h : s.ItemAt r parts u) (hu : r.Respelled u w) :
    ∃ parts', s.ItemAt r parts' w ∧ parts'.bare = parts.bare := by
  cases h with
  | untagged ht hk =>
    rename_i parts
    have hapart : parts.content.KeysApart := hapart
    obtain ⟨parts', hk', hbare⟩ := hk.respelled hs hapart hu
    exact ⟨_, .untagged ht hk', bare_withTagged hbare false⟩
  | absent ht hh hm hk =>
    rename_i tag h parts
    have hapart : parts.content.KeysApart := hapart
    obtain ⟨parts', hk', hbare⟩ := hk.respelled hs hapart hu
    obtain ⟨h', hh', hmajor⟩ := hu.startsHead hh
    exact ⟨_, .absent ht hh' (by rwa [hmajor]) hk', bare_withTagged hbare false⟩
  | tagged ht hh hm ha hk =>
    rename_i rule h parts front inner
    have hapart : parts.content.KeysApart := hapart
    obtain ⟨h', front', w', rfl, hh', hm', harg, hinner⟩ := hu.tagged hh hm
    obtain ⟨parts', hk', hbare⟩ := hk.respelled hs hapart hinner
    exact ⟨_, .tagged ht hh' hm' (by rwa [harg]) hk', bare_withTagged hbare true⟩

/-- **And so it is with the bytes that are kept**, which are those of the spelling. -/
theorem Shape.KeptAt.respelled (hs : s.Indifferent r) {parts : Parts}
    (hapart : parts.content.KeysApart) (h : s.KeptAt r parts u) (hu : r.Respelled u w) :
    ∃ parts', s.KeptAt r parts' w ∧ parts'.bare = parts.bare := by
  cases h with
  | kept hp hi =>
    rename_i parts
    have hapart : parts.content.KeysApart := hapart
    obtain ⟨parts', hi', hbare⟩ := hi.respelled hs hapart hu
    exact ⟨_, .kept hp hi', hbare⟩
  | dropped hp hi =>
    obtain ⟨parts', hi', hbare⟩ := hi.respelled hs hapart hu
    exact ⟨parts', .dropped hp hi', hbare⟩

/-- Only a shape with entries has entries read of it. -/
theorem Shape.KeptAt.entries_layout {parts : Parts} (h : s.KeptAt r parts u)
    {es : List (Value × Value)} (hes : parts.content = .entries es) :
    ∃ key value, s.layout = some (.entries key value) := by
  have kind : ∀ {parts : Parts} {u : Bytes}, s.KindAt r parts u → parts.content = .entries es →
      ∃ key value, s.layout = some (.entries key value) := by
    intro parts u h hes
    have array : ∀ {parts : Parts} {u : Bytes}, s.ArrayAt r parts u →
        parts.content ≠ .entries es := by
      intro parts u h hes
      cases h with
      | items => cases hes
      | fields => cases hes
    cases h with
    | scalar hk h =>
      cases h with
      | mk => cases hes
    | list hk h => exact absurd hes (array h)
    | map hk h =>
      cases h with
      | entries hl => exact ⟨_, _, hl⟩
      | fields => cases hes
    | constructor hk h =>
      cases h with
      | mk hi hc ha =>
        rename_i index parts front u
        have hes : parts.content = .entries es := hes
        exact absurd hes (array ha)
    | union hk h =>
      cases h with
      | mk => cases hes
  have item : ∀ {parts : Parts} {u : Bytes}, s.ItemAt r parts u → parts.content = .entries es →
      ∃ key value, s.layout = some (.entries key value) := by
    intro parts u h hes
    cases h with
    | untagged ht hk => exact kind hk hes
    | absent ht hh hm hk => exact kind hk hes
    | tagged ht hh hm ha hk => exact kind hk hes
  cases h with
  | kept hp hi => exact item hi hes
  | dropped hp hi => exact item hi hes

end CborSchema
