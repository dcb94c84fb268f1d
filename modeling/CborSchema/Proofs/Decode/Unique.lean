import CborSchema.Proofs.Decode.Values
import CborSchema.Proofs.Roundtrip.Scalars

/-!
# Bytes that are read in one way only

Two readings of the same bytes, of whatever shapes and with whatever limits, meet at the same
places: no item is the start of another, so what stands in front of an item is found by counting
items.

* `Head.Spelled.cancel`, `IsItem.cancel`, `InRow.cancel`, `Head.Payload.cancel` -- heads, items,
  items in a row and payloads in front of other bytes are the same if the bytes are;
* `LiteralAt.unique`, `KeyAt.unique`, `IndexAt.cancel` -- bytes hold one literal, one key and one
  constructor index;
* `Opens.cancel`, `Body.unique` -- and so it is with the head of a collection and what it announces;
* `KeyedStep.under` -- an entry is of the field whose key it starts with;
* `behind_tag_unique` -- and with the tag in front of an item.
-/

namespace CborSchema

open Decoder

variable {s s' : Shape} {r r' : Reading}

/-! ## 1. Heads and items -/

/-- **Heads in front of the same bytes are the same.** -/
theorem Head.Spelled.cancel {h h' : Head} {x x' u u' : Bytes} (hx : h.Spelled x)
    (hx' : h'.Spelled x') (e : x ++ u = x' ++ u') : h = h' ∧ x = x' ∧ u = u' := by
  have hread := hx "" u
  rw [e, hx' "" u', Prod.mk.injEq, Except.ok.injEq] at hread
  obtain ⟨hhead, hrest⟩ := hread
  subst hrest
  exact ⟨hhead.symm, List.append_cancel_right e, rfl⟩

/-- **Items in front of the same bytes are the same.** -/
theorem IsItem.cancel {x x' u u' : Bytes} (hx : IsItem x) (hx' : IsItem x')
    (e : x ++ u = x' ++ u') : x = x' ∧ u = u' := by
  obtain rfl := hx.eq_of_append hx' e
  exact ⟨rfl, List.append_cancel_left e⟩

/-- **As many items in front of the same bytes are the same.** -/
theorem InRow.cancel {k : Nat} {x x' u u' : Bytes} (hx : InRow IsItem k x) (hx' : InRow IsItem k x')
    (e : x ++ u = x' ++ u') : x = x' ∧ u = u' := by
  induction hx generalizing x' with
  | nil =>
    cases hx'
    exact ⟨rfl, e⟩
  | cons hi _ ih =>
    cases hx' with
    | cons hi' hs' =>
      rw [List.append_assoc, List.append_assoc] at e
      obtain ⟨rfl, hrest⟩ := hi.cancel hi' e
      obtain ⟨rfl, rfl⟩ := ih hs' hrest
      exact ⟨rfl, rfl⟩

/-- Items that are all of the same bytes are as many. -/
theorem InRow.count_eq {j k : Nat} {x : Bytes} (hx : InRow IsItem j x) (hx' : InRow IsItem k x) :
    j = k := by
  induction hx generalizing k with
  | nil =>
    generalize he : ([] : Bytes) = y at hx'
    cases hx' with
    | nil => rfl
    | cons hi _ => exact absurd (List.append_eq_nil_iff.mp he.symm).1 hi.ne_nil
  | cons hi _ ih =>
    rename_i z j bytes _
    generalize he : z ++ bytes = y at hx'
    cases hx' with
    | nil => exact absurd (List.append_eq_nil_iff.mp he).1 hi.ne_nil
    | cons hi' hs' =>
      obtain ⟨rfl, rfl⟩ := hi.cancel hi' he
      rw [ih hs']

/-- **Payloads behind the same head in front of the same bytes are the same**, whatever they may
    hold. -/
theorem Head.Payload.cancel {h : Head} {max max' : UInt64} {p p' x x' u u' : Bytes}
    (hp : h.Payload max p x) (hp' : h.Payload max' p' x') (e : x ++ u = x' ++ u') :
    p = p' ∧ x = x' ∧ u = u' := by
  have hread := Scan.payload_reads hp.largest "" u
  rw [e, Scan.payload_reads hp'.largest "" u', Prod.mk.injEq, Except.ok.injEq] at hread
  obtain ⟨hpayload, hrest⟩ := hread
  subst hrest
  exact ⟨hpayload.symm, List.append_cancel_right e, rfl⟩

/-! ## 2. Literals and keys -/

theorem textPayload_inj {a b : String} (h : textPayload a = textPayload b) : a = b := by
  have hdecode := decodeText_textPayload a
  rw [h, decodeText_textPayload, Option.some.injEq] at hdecode
  exact hdecode.symm

/-- An integer is known by its sign and its argument. -/
theorem wireMagnitude_inj {n n' : Int64} (hsign : 0 ≤ n ↔ 0 ≤ n')
    (h : wireMagnitude n = wireMagnitude n') : n = n' := by
  by_cases hn : 0 ≤ n
  · rw [← toInt64_wireMagnitude hn, h, toInt64_wireMagnitude (hsign.mp hn)]
  · rw [← complement_wireMagnitude hn, h, complement_wireMagnitude fun hn' => hn (hsign.mpr hn')]

/-- A truth value is told by its head, whatever the name of the place. -/
theorem Head.truth_unique {h : Head} {name name' : String} {b b' : Bool} (hb : h.truth name = .ok b)
    (hb' : h.truth name' = .ok b') : b = b' := by
  unfold Head.truth at hb hb'
  split at hb
  · rename_i found hm ha
    simp only [hm, ha] at hb'
    by_cases hfalse : found = simpleFalse
    · rw [if_pos hfalse] at hb hb'
      cases hb
      cases hb'
      rfl
    · rw [if_neg hfalse] at hb hb'
      split at hb
      · rename_i htrue
        rw [if_pos htrue] at hb'
        cases hb
        cases hb'
        rfl
      · cases hb
  · cases hb

theorem LiteralAfter.unique {name name' : String} {max max' : UInt64} {h : Head} {l l' : Literal}
    {u : Bytes} (hl : LiteralAfter name max h l u) (hl' : LiteralAfter name' max' h l' u) :
    l = l' := by
  cases hl with
  | int hm ha =>
    rename_i n
    cases hl' with
    | int hm' ha' =>
      rename_i n'
      rw [ha, Option.some.injEq] at ha'
      rw [hm] at hm'
      have hsign : 0 ≤ n ↔ 0 ≤ n' := by
        by_cases hn : 0 ≤ n
        · by_cases hn' : 0 ≤ n'
          · simp [hn, hn']
          · rw [if_pos hn, if_neg hn'] at hm'
            cases hm'
        · by_cases hn' : 0 ≤ n'
          · rw [if_neg hn, if_pos hn'] at hm'
            cases hm'
          · simp [hn, hn']
      rw [wireMagnitude_inj hsign ha']
    | bool hb =>
      rw [(Head.truth_plain hb).1] at hm
      split at hm <;> cases hm
    | text hm' hp =>
      rw [hm] at hm'
      split at hm' <;> cases hm'
  | bool hb =>
    have hplain := (Head.truth_plain hb).1
    cases hl' with
    | int hm' ha' =>
      rw [hplain] at hm'
      split at hm' <;> cases hm'
    | bool hb' => rw [Head.truth_unique hb hb']
    | text hm' hp =>
      rw [hplain] at hm'
      cases hm'
  | text hm hp =>
    cases hl' with
    | int hm' ha' =>
      rw [hm] at hm'
      split at hm' <;> cases hm'
    | bool hb' =>
      rw [(Head.truth_plain hb').1] at hm
      cases hm
    | text hm' hp' =>
      obtain ⟨hpayload, _⟩ := hp.cancel (u := []) hp' rfl
      rw [textPayload_inj hpayload]

/-- **Bytes hold one literal.** -/
theorem LiteralAt.unique {name name' : String} {max max' : UInt64} {l l' : Literal} {x : Bytes}
    (hl : LiteralAt name max l x) (hl' : LiteralAt name' max' l' x) : l = l' := by
  cases hl with
  | mk hh hl =>
    rename_i h front u
    generalize hx : front ++ u = y at hl'
    cases hl' with
    | mk hh' hl' =>
      obtain ⟨rfl, rfl, rfl⟩ := hh.cancel hh' hx
      exact hl.unique hl'

/-- A reading of items without parts, with the largest limits there are and nesting for so many
    bytes. -/
def Reading.widest (k : Nat) : Reading where
  options := { maxCollectionLength := largestLength, maxStringLength := largestLength }
  depth := k
  part _ := Decoder.fail (.wire (.tooDeep k))

theorem Reading.widest_roomy (k : Nat) {n : Nat} (h : n < UInt64.size) :
    (Reading.widest k).Roomy n := by
  have hmax : n ≤ largestLength.toNat := by
    rw [largestLength_toNat]
    rw [UInt64.size] at h
    omega
  exact ⟨hmax, hmax⟩

/-- What is a key for some limits is the same key for all larger ones. -/
theorem KeyAt.widest {key : KeyItem} {u : Bytes} (h : KeyAt r key u) :
    KeyAt (.widest u.length) key u := by
  cases h with
  | unsigned hh hm hn => exact .unsigned hh hm hn
  | negative hh hm hn => exact .negative hh hm hn
  | text hh hm hp ht => exact .text hh hm hp.largest ht
  | other hh hm hi => exact .other hh hm (Item.succ hi.isItem)

/-- **Bytes hold one key.** -/
theorem KeyAt.unique {key key' : KeyItem} {u : Bytes} (h : KeyAt r key u) (h' : KeyAt r' key' u) :
    key = key' := (readKeyItem_reads h.widest).unique (readKeyItem_reads h'.widest)

/-! ## 3. Constructor indices -/

/-- **What stands in front of the fields of a constructor stands for one index.** -/
theorem IndexAt.cancel {i i' : UInt64} {x x' u u' : Bytes} (h : IndexAt i x) (h' : IndexAt i' x')
    (e : x ++ u = x' ++ u') : i = i' ∧ x = x' ∧ u = u' := by
  have hread : (readConstructorIndex "" (x ++ u)).result = .ok (i, u) :=
    readConstructorIndex_reads h u
  rw [e, readConstructorIndex_reads h' u', Except.ok.injEq, Prod.mk.injEq] at hread
  obtain ⟨hindex, hrest⟩ := hread
  subst hrest
  exact ⟨hindex.symm, List.append_cancel_right e, rfl⟩

/-! ## 4. Collections -/

/-- **The head of a collection announces the same, however it is read.** -/
theorem Shape.Opens.cancel {m m' : Major} {e e' : Pending} {x x' u u' : Bytes}
    (h : s.Opens r m e x) (h' : s'.Opens r' m' e' x') (hb : x ++ u = x' ++ u') :
    m = m' ∧ e = e' ∧ x = x' ∧ u = u' := by
  cases h with
  | counted hh hm hn hf hmax =>
    cases h' with
    | counted hh' hm' hn' hf' hmax' =>
      obtain ⟨rfl, rfl, rfl⟩ := hh.cancel hh' hb
      rw [hn, Option.some.injEq] at hn'
      exact ⟨hm.symm.trans hm', by rw [hn'], rfl, rfl⟩
    | toBreak hh' hm' hn' hf' =>
      obtain ⟨rfl, rfl, rfl⟩ := hh.cancel hh' hb
      rw [hn] at hn'
      cases hn'
  | toBreak hh hm hn hf =>
    cases h' with
    | counted hh' hm' hn' hf' hmax' =>
      obtain ⟨rfl, rfl, rfl⟩ := hh.cancel hh' hb
      rw [hn] at hn'
      cases hn'
    | toBreak hh' hm' hn' hf' =>
      obtain ⟨rfl, rfl, rfl⟩ := hh.cancel hh' hb
      exact ⟨hm.symm.trans hm', rfl, rfl, rfl⟩

/-- What a collection announces is in the same bytes. -/
theorem Pending.Body.inner_unique {e : Pending} {j k : Nat} {x y u : Bytes} (h : e.Body j x u)
    (h' : e.Body k y u) : x = y := by
  cases h with
  | counted =>
    cases h'
    rfl
  | toBreak =>
    generalize hu : x ++ [breakByte] = z at h'
    cases h' with
    | toBreak => exact List.append_cancel_right hu

/-- **What a collection announces is in the same bytes, and as many items.** -/
theorem Pending.Body.unique {e : Pending} {j k width : Nat} {x y u : Bytes} (h : e.Body j x u)
    (h' : e.Body k y u) (hw : width ≠ 0) (hx : InRow IsItem (j * width) x)
    (hy : InRow IsItem (k * width) y) : j = k ∧ x = y := by
  obtain rfl := h.inner_unique h'
  exact ⟨Nat.eq_of_mul_eq_mul_right (Nat.pos_of_ne_zero hw) (hx.count_eq hy), rfl⟩

/-- **An entry that starts with the key of a field is of this field**, and was not there before. -/
theorem KeyedStep.under {fields : List Field} {found found' : Found} {x y v : Bytes} {f : Field}
    (h : KeyedStep s r fields found x found') (hn : (fields.map Field.key).Nodup) (hf : f ∈ fields)
    (hx : x = y ++ v) (hy : KeyAt r' (.field f.key) y) :
    KeyAt r (.field f.key) y ∧ f.key ∉ found.map Prod.fst ∧
      ((∃ l, f.body = .literal l ∧ LiteralAt s.name r.options.maxStringLength l v ∧
          found' = (f.key, none) :: found) ∨
        ∃ type presence z, f.body = .value type presence ∧ r.PartAt type z v ∧
          found' = (f.key, some z) :: found) := by
  have hfind := find_key hn hf
  cases h with
  | unknown hk hnone he hv =>
    obtain ⟨rfl, rfl⟩ := hk.isItem.cancel hy.isItem hx
    obtain rfl := hk.unique hy
    rw [hfind] at hnone
    cases hnone
  | literal hk hsome hnew hb hv =>
    obtain ⟨rfl, rfl⟩ := hk.isItem.cancel hy.isItem hx
    obtain rfl := hk.unique hy
    obtain rfl := Option.some.inj (hsome.symm.trans hfind)
    exact ⟨hk, hnew, .inl ⟨_, hb, hv, rfl⟩⟩
  | value hk hsome hnew hb hv =>
    obtain ⟨rfl, rfl⟩ := hk.isItem.cancel hy.isItem hx
    obtain rfl := hk.unique hy
    obtain rfl := Option.some.inj (hsome.symm.trans hfind)
    exact ⟨hk, hnew, .inr ⟨_, _, _, hb, hv, rfl⟩⟩

/-! ## 5. Items of a kind -/

theorem Shape.KindAt.scalarAt {p : Primitive} {parts : Parts} {u : Bytes} (h : s.KindAt r parts u)
    (hk : s.kind = .scalar p) : s.ScalarAt r p parts u := by
  cases h with
  | scalar hk' h =>
    obtain rfl := Kind.scalar.inj (hk'.symm.trans hk)
    exact h
  | list hk' _ => cases hk'.symm.trans hk
  | map hk' _ => cases hk'.symm.trans hk
  | constructor hk' _ => cases hk'.symm.trans hk
  | union hk' _ => cases hk'.symm.trans hk

theorem Shape.KindAt.arrayAt {parts : Parts} {u : Bytes} (h : s.KindAt r parts u)
    (hk : s.kind = .list) : s.ArrayAt r parts u := by
  cases h with
  | list _ h => exact h
  | scalar hk' _ => cases hk'.symm.trans hk
  | map hk' _ => cases hk'.symm.trans hk
  | constructor hk' _ => cases hk'.symm.trans hk
  | union hk' _ => cases hk'.symm.trans hk

theorem Shape.KindAt.mapAt {parts : Parts} {u : Bytes} (h : s.KindAt r parts u)
    (hk : s.kind = .map) : s.MapAt r parts u := by
  cases h with
  | map _ h => exact h
  | scalar hk' _ => cases hk'.symm.trans hk
  | list hk' _ => cases hk'.symm.trans hk
  | constructor hk' _ => cases hk'.symm.trans hk
  | union hk' _ => cases hk'.symm.trans hk

theorem Shape.KindAt.constructorAt {parts : Parts} {u : Bytes} (h : s.KindAt r parts u)
    (hk : s.kind = .constructor) : s.ConstructorAt r parts u := by
  cases h with
  | constructor _ h => exact h
  | scalar hk' _ => cases hk'.symm.trans hk
  | list hk' _ => cases hk'.symm.trans hk
  | map hk' _ => cases hk'.symm.trans hk
  | union hk' _ => cases hk'.symm.trans hk

theorem Shape.KindAt.unionAt {parts : Parts} {u : Bytes} (h : s.KindAt r parts u)
    (hk : s.kind = .union) : s.UnionAt r parts u := by
  cases h with
  | union _ h => exact h
  | scalar hk' _ => cases hk'.symm.trans hk
  | list hk' _ => cases hk'.symm.trans hk
  | map hk' _ => cases hk'.symm.trans hk
  | constructor hk' _ => cases hk'.symm.trans hk

/-- Whatever follows an item, nothing but the item is read. -/
theorem Codec.reads_of_item {c : Codec} {o : DecodeOptions} {depth : Nat} {t : TypeExpr} {v : Value}
    {u rest rest' : Bytes} (hu : IsItem u)
    (h : (c.read o depth t (u ++ rest)).result = .ok (v, rest')) :
    rest' = rest ∧ (c.read o depth t).Reads u v := by
  obtain ⟨used, hused, hreads, hat⟩ := c.read_partAt o depth t _ v rest' h
  obtain ⟨rfl, rfl⟩ := hu.cancel hat.item hused
  exact ⟨rfl, hreads⟩

/-- **Bytes that start with no tag stand behind the same tag**, whichever reading finds one. -/
theorem behind_tag_unique {front front' inner inner' : Bytes}
    (hf : front = [] ∨ ∃ h : Head, h.Spelled front ∧ h.major = .tag)
    (hf' : front' = [] ∨ ∃ h : Head, h.Spelled front' ∧ h.major = .tag)
    (hi : ∃ h, StartsHead h inner ∧ h.major ≠ .tag)
    (hi' : ∃ h, StartsHead h inner' ∧ h.major ≠ .tag) (e : front ++ inner = front' ++ inner') :
    inner = inner' := by
  obtain ⟨h, hh, hm⟩ := hi
  obtain ⟨h', hh', hm'⟩ := hi'
  rcases hf with rfl | ⟨g, hg, hgm⟩
  · rcases hf' with rfl | ⟨g', hg', hgm'⟩
    · exact e
    · rw [List.nil_append] at e
      subst e
      obtain rfl := hh.unique (hg'.starts inner')
      exact absurd hgm' hm
  · rcases hf' with rfl | ⟨g', hg', hgm'⟩
    · rw [List.nil_append] at e
      subst e
      obtain rfl := hh'.unique (hg.starts inner)
      exact absurd hgm hm'
    · exact (hg.cancel hg' e).2.2

end CborSchema
