import CborSchema.Proofs.Decode.Unique
import CborSchema.Proofs.Roundtrip.Presence

/-!
# The forms of a constructor

A constructor has a general form and, if its index is small, a short one. The writer picks one of
them by the index and by what the shape asks for; the reader takes both, under heads of any width,
and finds the index and the fields behind them.

* `Tag.ofIndex?_eq_some_iff` -- short tags and small indexes are the same things;
* `ConstructorForm` -- the forms of an index, with their tags spelled out; `indexAt_iff` says that
  they are what is read in front of the fields;
* `Shape.Emits` -- which form is written; `emits_iff`, `Shape.Emits.form`: this is one of the forms;
* `Shape.keptAt_constructor_iff` -- a constructor is a form of an index that the shape takes and an
  array;
* `form_of_tag_iff`, `readConstructorIndex_unknown` -- which tags are accepted; the others are
  refused;
* `write_constructor_iff`, `read_constructor_iff` -- what is written for a constructor, and what is
  read;
* `Catalog.ConstructorForms`, `Catalog.constructor_forms` -- **the forms of constructors are inverse
  to each other over all indexes.**
-/

namespace CborSchema

open Decoder

variable {s : Shape} {r : Reading} {w : Writing} {c : Catalog} {t : TypeExpr}

/-! ## 1. Short tags -/

namespace Tag

/-- **The index of a short tag has this short tag.** -/
theorem ofIndex?_index? {tag index : UInt64} (h : index? tag = some index) :
    ofIndex? index = some tag := by
  have h6 : (6 : UInt64).toNat = 6 := rfl
  have h7 : (7 : UInt64).toNat = 7 := rfl
  have h121 : (121 : UInt64).toNat = 121 := rfl
  have h127 : (127 : UInt64).toNat = 127 := rfl
  have h1280 : (1280 : UInt64).toNat = 1280 := rfl
  have h1400 : (1400 : UInt64).toNat = 1400 := rfl
  rw [index?] at h
  rw [ofIndex?]
  simp only [Bool.and_eq_true, decide_eq_true_eq] at h
  simp only [UInt64.le_iff_toNat_le] at h ⊢
  split at h
  · rename_i ht
    cases h
    have hindex : (tag - 121).toNat = tag.toNat - 121 := by
      rw [UInt64.toNat_sub_of_le _ _ (UInt64.le_iff_toNat_le.mpr (by omega))]
      rfl
    rw [if_pos (by omega), UInt64.add_comm, UInt64.sub_add_cancel]
  · split at h
    · rename_i ht ht'
      cases h
      have hindex : (tag - 1280 + 7).toNat = tag.toNat - 1273 := by
        rw [UInt64.toNat_add, UInt64.toNat_sub_of_le _ _ (UInt64.le_iff_toNat_le.mpr (by omega))]
        omega
      rw [if_neg (by omega), if_pos (by omega), UInt64.add_sub_cancel, UInt64.add_comm,
        UInt64.sub_add_cancel]
    · cases h

/-- **Short tags and the indexes that have one are inverse to each other.** -/
theorem ofIndex?_eq_some_iff {index tag : UInt64} : ofIndex? index = some tag ↔
    index? tag = some index :=
  ⟨index?_ofIndex?, ofIndex?_index?⟩

theorem index?_general : index? general = none := by decide

/-- No index has the general tag as its short tag. -/
theorem ofIndex?_ne_general (index : UInt64) : ofIndex? index ≠ some general := by
  rw [ne_eq, ofIndex?_eq_some_iff, index?_general]
  exact Option.some_ne_none index ∘ Eq.symm

end Tag

/-! ## 2. Forms of an index -/

/-- What may stand in front of the fields of a constructor of an index, under heads of any width:
    the short tag of one of the first seven indexes or of one of the next, or for any index the
    general tag, the head of a pair and the index. -/
inductive ConstructorForm (index : UInt64) : Bytes → Prop where
  | first {h : Head} {front : Bytes} (hi : index ≤ 6) (hh : h.Spelled front) (hm : h.major = .tag)
      (ha : h.arg = some (121 + index)) : ConstructorForm index front
  | next {h : Head} {front : Bytes} (hi : 7 ≤ index) (hi' : index ≤ 127) (hh : h.Spelled front)
      (hm : h.major = .tag) (ha : h.arg = some (1280 + (index - 7))) : ConstructorForm index front
  | general {h p i : Head} {front second third : Bytes} (hh : h.Spelled front) (hm : h.major = .tag)
      (ha : h.arg = some 102) (hp : p.Spelled second) (hpm : p.major = .array)
      (hpa : p.arg = some 2)
      (hi : i.Spelled third) (him : i.major = .unsigned) (hia : i.arg = some index) :
      ConstructorForm index (front ++ (second ++ third))

theorem Tag.ofIndex?_first {index : UInt64} (h : index ≤ 6) :
    Tag.ofIndex? index = some (121 + index) :=
  if_pos h

theorem Tag.ofIndex?_next {index : UInt64} (h : 7 ≤ index) (h' : index ≤ 127) :
    Tag.ofIndex? index = some (1280 + (index - 7)) := by
  have h6 : ¬ index ≤ 6 := by
    rw [UInt64.le_iff_toNat_le] at h ⊢
    have h7 : (7 : UInt64).toNat = 7 := rfl
    have h6 : (6 : UInt64).toNat = 6 := rfl
    omega
  rw [Tag.ofIndex?, if_neg h6, if_pos h']

/-- An index is one of the first seven, one of the next, or beyond. -/
theorem index_range (index : UInt64) : index ≤ 6 ∨ (7 ≤ index ∧ index ≤ 127) ∨ 127 < index := by
  have h6 : (6 : UInt64).toNat = 6 := rfl
  have h7 : (7 : UInt64).toNat = 7 := rfl
  simp only [UInt64.le_iff_toNat_le, UInt64.lt_iff_toNat_lt]
  omega

theorem Tag.ofIndex?_beyond {index : UInt64} (h : 127 < index) : Tag.ofIndex? index = none := by
  have h6 : (6 : UInt64).toNat = 6 := rfl
  have h127 : (127 : UInt64).toNat = 127 := rfl
  rw [UInt64.lt_iff_toNat_lt] at h
  rw [Tag.ofIndex?, if_neg, if_neg]
  · rw [UInt64.le_iff_toNat_le]
    omega
  · rw [UInt64.le_iff_toNat_le]
    omega

/-- **What is read in front of the fields are the forms of the index.** -/
theorem indexAt_iff {index : UInt64} {front : Bytes} :
    IndexAt index front ↔ ConstructorForm index front := by
  constructor
  · intro h
    cases h with
    | short hh hm hi =>
      rename_i h
      obtain ⟨tag, ha⟩ := Option.ne_none_iff_exists'.mp (hh.arg_ne_none (by rw [hm]; rfl))
      rw [ha, Option.getD_some] at hi
      have hshort := Tag.ofIndex?_index? hi
      rcases index_range index with hrange | ⟨hrange, hrange'⟩ | hrange
      · rw [Tag.ofIndex?_first hrange] at hshort
        exact .first hrange hh hm (ha.trans hshort.symm)
      · rw [Tag.ofIndex?_next hrange hrange'] at hshort
        exact .next hrange hrange' hh hm (ha.trans hshort.symm)
      · rw [Tag.ofIndex?_beyond hrange] at hshort
        cases hshort
    | pair hh hm ht hp hpm hpa hi him hia =>
      rename_i h p i first second third
      obtain ⟨tag, ha⟩ := Option.ne_none_iff_exists'.mp (hh.arg_ne_none (by rw [hm]; rfl))
      rw [ha, Option.getD_some] at ht
      exact .general hh hm (ha.trans (congrArg some ht)) hp hpm hpa hi him hia
  · intro h
    cases h with
    | first hrange hh hm ha =>
      refine .short hh hm ?_
      rw [ha]
      exact Tag.index?_ofIndex? (Tag.ofIndex?_first hrange)
    | next hrange hrange' hh hm ha =>
      refine .short hh hm ?_
      rw [ha]
      exact Tag.index?_ofIndex? (Tag.ofIndex?_next hrange hrange')
    | general hh hm ha hp hpm hpa hi him hia =>
      refine .pair hh hm ?_ hp hpm hpa hi him hia
      rw [ha]
      rfl

/-! ## 3. The form that is written -/

/-- The index that a shape fixes for all its constructors. -/
def Shape.Fixes (s : Shape) (index : UInt64) : Prop :=
  s.alternative = some (.index index) ∨ s.alternative = some (.general index)

/-- The index under which a value is written in its shortest form: the one of the shape, or the own
    index of the value where the shape leaves it open. -/
def Shape.Names (s : Shape) (own : Option UInt64) (index : UInt64) : Prop :=
  s.alternative = some (.index index) ∨ s.alternative = some .any ∧ own = some index

/-- What is written in front of the fields of a value, given its own index. -/
inductive Shape.Emits (s : Shape) (own : Option UInt64) : UInt64 → Bytes → Prop where
  | first {index : UInt64} (hn : s.Names own index) (hi : index ≤ 6) :
      Emits s own index (tagBytes (121 + index))
  | next {index : UInt64} (hn : s.Names own index) (hi : 7 ≤ index) (hi' : index ≤ 127) :
      Emits s own index (tagBytes (1280 + (index - 7)))
  | beyond {index : UInt64} (hn : s.Names own index) (hi : 127 < index) :
      Emits s own index (tagBytes 102 ++ headBytes .array 2 .minimal ++ uintBytes index)
  | general {index : UInt64} (hg : s.alternative = some (.general index)) :
      Emits s own index (tagBytes 102 ++ headBytes .array 2 .minimal ++ uintBytes index)

theorem constructorIndex_eq_ok {p : Pieces} {index : UInt64} {general : Bool}
    (ha : s.alternative ≠ none) : s.constructorIndex p = .ok (index, general) ↔
      (general = true ∧ s.alternative = some (.general index)) ∨
        (general = false ∧ s.Names p.alternative index) := by
  obtain ⟨a, ha⟩ := Option.ne_none_iff_exists'.mp ha
  rw [Shape.constructorIndex, Shape.Names, ha]
  cases a with
  | index i => simp [Prod.ext_iff, and_comm, eq_comm]
  | general i => simp [Prod.ext_iff, and_comm, eq_comm]
  | any => cases p.alternative <;> simp [Prod.ext_iff, and_comm, eq_comm]

theorem constructorFront_short {index tag : UInt64} (h : Tag.ofIndex? index = some tag) :
    constructorFront index false = tagBytes tag := by
  unfold constructorFront
  rw [h]

theorem constructorFront_beyond {index : UInt64} (h : Tag.ofIndex? index = none) :
    constructorFront index false =
      tagBytes 102 ++ headBytes .array 2 .minimal ++ uintBytes index := by
  unfold constructorFront
  rw [h]
  rfl

theorem constructorFront_general (index : UInt64) : constructorFront index true =
    tagBytes 102 ++ headBytes .array 2 .minimal ++ uintBytes index := by
  unfold constructorFront
  cases Tag.ofIndex? index <;> rfl

/-- **What is written in front of the fields** goes by the index and by what the shape asks for. -/
theorem emits_iff {p : Pieces} {index : UInt64} {front : Bytes} (ha : s.alternative ≠ none) :
    (∃ general, s.constructorIndex p = .ok (index, general) ∧
      constructorFront index general = front) ↔
      s.Emits p.alternative index front := by
  constructor
  · rintro ⟨general, hi, rfl⟩
    rcases (constructorIndex_eq_ok ha).mp hi with ⟨rfl, hg⟩ | ⟨rfl, hn⟩
    · rw [constructorFront_general]
      exact .general hg
    · rcases index_range index with hrange | ⟨hrange, hrange'⟩ | hrange
      · rw [constructorFront_short (Tag.ofIndex?_first hrange)]
        exact .first hn hrange
      · rw [constructorFront_short (Tag.ofIndex?_next hrange hrange')]
        exact .next hn hrange hrange'
      · rw [constructorFront_beyond (Tag.ofIndex?_beyond hrange)]
        exact .beyond hn hrange
  · intro h
    cases h with
    | first hn hrange =>
      exact ⟨false, (constructorIndex_eq_ok ha).mpr (.inr ⟨rfl, hn⟩),
        constructorFront_short (Tag.ofIndex?_first hrange)⟩
    | next hn hrange hrange' =>
      exact ⟨false, (constructorIndex_eq_ok ha).mpr (.inr ⟨rfl, hn⟩),
        constructorFront_short (Tag.ofIndex?_next hrange hrange')⟩
    | beyond hn hrange =>
      exact ⟨false, (constructorIndex_eq_ok ha).mpr (.inr ⟨rfl, hn⟩),
        constructorFront_beyond (Tag.ofIndex?_beyond hrange)⟩
    | general hg =>
      exact ⟨true, (constructorIndex_eq_ok ha).mpr (.inl ⟨rfl, hg⟩), constructorFront_general index⟩

/-- The indexes that a shape takes: the one it fixes, or any. -/
def Shape.Takes (s : Shape) (index : UInt64) : Prop := ∀ fixed, s.Fixes fixed → index = fixed

theorem Shape.Fixes.takes {index : UInt64} (h : s.Fixes index) : s.Takes index := by
  rintro fixed (hf | hf)
  · rcases h with h | h
    · exact Alternative.index.inj (Option.some.inj (h.symm.trans hf))
    · cases h.symm.trans hf
  · rcases h with h | h
    · cases h.symm.trans hf
    · exact Alternative.general.inj (Option.some.inj (h.symm.trans hf))

theorem Shape.Names.takes {own : Option UInt64} {index : UInt64} (h : s.Names own index) :
    s.Takes index := by
  rcases h with h | ⟨h, -⟩
  · exact Fixes.takes (.inl h)
  · rintro fixed (hf | hf)
    · cases h.symm.trans hf
    · cases h.symm.trans hf

/-- What is written is a form of an index that the shape takes. -/
theorem Shape.Emits.form {own : Option UInt64} {index : UInt64} {front : Bytes}
    (h : s.Emits own index front) : ConstructorForm index front ∧ s.Takes index := by
  have pair : ConstructorForm index
      (tagBytes 102 ++ headBytes .array 2 .minimal ++ uintBytes index) := by
    obtain ⟨info, hh⟩ := headBytes_spelled .tag 102 .minimal
    obtain ⟨info', hp⟩ := headBytes_spelled .array 2 .minimal
    obtain ⟨info'', hi⟩ := headBytes_spelled .unsigned index .minimal
    rw [List.append_assoc]
    exact .general hh rfl rfl hp rfl rfl hi rfl rfl
  cases h with
  | first hn hrange =>
    obtain ⟨info, hh⟩ := headBytes_spelled .tag (121 + index) .minimal
    exact ⟨.first hrange hh rfl rfl, hn.takes⟩
  | next hn hrange hrange' =>
    obtain ⟨info, hh⟩ := headBytes_spelled .tag (1280 + (index - 7)) .minimal
    exact ⟨.next hrange hrange' hh rfl rfl, hn.takes⟩
  | beyond hn hrange => exact ⟨pair, hn.takes⟩
  | general hg => exact ⟨pair, Fixes.takes (.inr hg)⟩

/-- A constructor that resolves fixes an index or leaves it open. -/
theorem resolve_alternative (hs : c.resolve t = .ok s) (hk : s.kind = .constructor) :
    s.alternative ≠ none := by
  obtain ⟨schema, _, h⟩ := Except.bind_eq_ok hs
  obtain ⟨s', hs', h⟩ := Except.bind_eq_ok h
  obtain ⟨_, _, h⟩ := Except.bind_eq_ok h
  cases h
  unfold Shape.ofSchema at hs'
  split at hs'
  · cases hs'
  · cases hs'
    dsimp only at hk ⊢
    rw [if_pos hk]
    cases schema.alternative <;> simp

/-! ## 4. Constructors that are read -/

theorem checkIndex_iff {index : UInt64} : s.checkIndex index = .ok () ↔ s.Takes index := by
  unfold Shape.checkIndex Shape.Takes Shape.Fixes
  cases ha : s.alternative with
  | none => simp
  | some a =>
    cases a with
    | any => simp
    | index i =>
      by_cases hi : index = i
      · simp [hi]
      · simp [hi, Ne.symm hi]
    | general i =>
      by_cases hi : index = i
      · simp [hi]
      · simp [hi, Ne.symm hi]

/-- Another index than the one a shape fixes is named in the refusal. -/
theorem checkIndex_of_fixes {index fixed : UInt64} (hf : s.Fixes fixed) (hne : index ≠ fixed) :
    s.checkIndex index = .error (.constructorIndexMismatch s.name fixed index) := by
  unfold Shape.checkIndex
  rcases hf with hf | hf
  · rw [hf]
    exact if_neg (Ne.symm hne)
  · rw [hf]
    exact if_neg (Ne.symm hne)

/-- The array of a shape is what its reader reads. -/
theorem readArray_iff (hr : r.Sound) {parts : Parts} {u : Bytes} :
    (s.readArray r).Reads u parts ↔ s.ArrayAt r parts u := by
  constructor
  · intro h
    obtain ⟨used, hu, -, hat⟩ := readArray_yields hr s u parts [] h.alone
    rw [List.append_nil] at hu
    exact hu ▸ hat
  · exact readArray_reads

/-- The parts of a constructor, given those of the array behind its front. -/
def Shape.constructorParts (s : Shape) (parts : Parts) (index : UInt64) (bytes : Bytes) : Parts :=
  { parts with alternative := some index, raw := if s.preserveRaw then some bytes else none }

/-- **A constructor is a form of an index that the shape takes, and an array.** -/
theorem Shape.keptAt_constructor_iff (htag : s.tag = none) (hk : s.kind = .constructor)
    {index : UInt64} {front u : Bytes} (hi : ConstructorForm index front) {kept : Parts} :
    s.KeptAt r kept (front ++ u) ↔ s.Takes index ∧ ∃ parts, s.ArrayAt r parts u ∧
      kept = s.constructorParts parts index (front ++ u) := by
  have plain {parts : Parts} (ha : s.ArrayAt r parts u) : parts.style.tagged = false ∧
      parts.raw = none := by
    cases ha <;> exact ⟨rfl, rfl⟩
  have item {parts : Parts} : s.ItemAt r parts (front ++ u) ↔
      s.Takes index ∧ ∃ parts', s.ArrayAt r parts' u ∧
      parts = { parts' with alternative := some index } := by
    constructor
    · intro h
      generalize hb : front ++ u = bytes at h
      cases h with
      | untagged _ hkind =>
        cases hkind.constructorAt hk with
        | mk hi' hc ha =>
          obtain ⟨rfl, rfl, rfl⟩ := (indexAt_iff.mpr hi).cancel hi' hb
          obtain ⟨hstyle, -⟩ := plain ha
          refine ⟨checkIndex_iff.mp hc, _, ha, ?_⟩
          rw [← hstyle]
      | absent ht => cases htag.symm.trans ht
      | tagged ht => cases htag.symm.trans ht
    · rintro ⟨hc, parts', ha, rfl⟩
      have hkind := Shape.ConstructorAt.mk (indexAt_iff.mpr hi) (checkIndex_iff.mpr hc) ha
      have hitem := Shape.ItemAt.untagged htag (.constructor hk hkind)
      dsimp only at hitem
      rwa [← (plain ha).1] at hitem
  constructor
  · intro h
    cases h with
    | kept hp h =>
      obtain ⟨hc, parts', ha, rfl⟩ := item.mp h
      exact ⟨hc, parts', ha, by rw [constructorParts, if_pos hp]⟩
    | dropped hp h =>
      obtain ⟨hc, parts', ha, rfl⟩ := item.mp h
      refine ⟨hc, parts', ha, ?_⟩
      rw [constructorParts, if_neg (by simp [hp]), ← (plain ha).2]
  · rintro ⟨hc, parts', ha, rfl⟩
    have h := item.mpr ⟨hc, parts', ha, rfl⟩
    by_cases hp : s.preserveRaw = true
    · rw [constructorParts, if_pos hp]
      exact .kept hp h
    · rw [constructorParts, if_neg hp, ← (plain ha).2]
      exact .dropped (by simpa using hp) h

/-- **A constructor is read as what its array is built into**, whichever form of the index is in
    front. -/
theorem read_constructor_iff {o : DecodeOptions} {depth : Nat} (hs : c.resolve t = .ok s)
    (hk : s.kind = .constructor) {index : UInt64} {front u : Bytes}
    (hi : ConstructorForm index front) {v : Value} :
    (c.codec.read o (depth + 1) t).Reads (front ++ u) v ↔ s.Takes index ∧
      ∃ parts, (s.readArray (c.codec.reading o depth)).Reads u parts ∧
        c.construct t s (s.constructorParts parts index (front ++ u)) = .ok v := by
  have hr := c.codec.sound o depth
  have hkept := @Shape.keptAt_constructor_iff s (c.codec.reading o depth)
    (check_constructor (resolve_check hs).1 hk).1 hk index front u hi
  constructor
  · intro h
    obtain ⟨kept, hat, hv⟩ := (Codec.readAt_of_reads hr h).keptAt hs
    obtain ⟨htakes, parts, ha, rfl⟩ := hkept.mp hat
    exact ⟨htakes, parts, (readArray_iff hr).mpr ha, hv⟩
  · rintro ⟨htakes, parts, ha, hv⟩
    exact Codec.read_reads (.mk hs (hkept.mpr ⟨htakes, parts, (readArray_iff hr).mp ha, rfl⟩) hv)

/-- A constructor is of a declared type, or of the type of constructors of any index. -/
theorem resolve_constructor (hs : c.resolve t = .ok s) (hk : s.kind = .constructor) :
    (∃ name, t = .named name) ∨ ∃ field, t = .anyConstructor field := by
  cases t with
  | named name => exact .inl ⟨name, rfl⟩
  | anyConstructor field => exact .inr ⟨field, rfl⟩
  | _ =>
    cases hs
    cases hk

/-- **The value that is built has the index of its parts**, and its content does not hang on the
    index or on the bytes that are kept. -/
theorem construct_constructor (hs : c.resolve t = .ok s) (hk : s.kind = .constructor)
    {parts : Parts} {index : UInt64} {bytes : Bytes} {v : Value}
    (h : c.construct t s (s.constructorParts parts index bytes) = .ok v) :
    v.notes.alternative = some index ∧ ∀ index' bytes', ∃ v',
      c.construct t s (s.constructorParts parts index' bytes') = .ok v' ∧
        v'.content = v.content := by
  rcases resolve_constructor hs hk with ⟨name, rfl⟩ | ⟨field, rfl⟩
  · obtain ⟨hreject, content, untaken, hcontent, rfl⟩ := construct_named_iff.mp h
    refine ⟨rfl, fun index' bytes' =>
      ⟨_, construct_named_iff.mpr ⟨hreject, content, untaken, ?_, rfl⟩, rfl⟩⟩
    rw [← hcontent]
    cases s.asksFor (c.declared name).conversion <;> rfl
  · obtain ⟨vs, hvs, hv⟩ := Except.bind_eq_ok
      (show (c.items field (s.constructorParts parts index bytes) >>= fun fields =>
        pure (Value.anyConstructor field index fields)) = .ok v from h)
    cases hv
    refine ⟨rfl, fun index' bytes' => ⟨.anyConstructor field index' vs, ?_, rfl⟩⟩
    have hsame : c.items field (s.constructorParts parts index' bytes') = .ok vs := hvs
    show (c.items field (s.constructorParts parts index' bytes') >>= _) = _
    rw [hsame]
    rfl

/-! ## 5. Constructors that are refused -/

/-- **A tag is refused unless it is the general one or the short tag of an index.** -/
theorem readConstructorIndex_unknown {name : String} {h : Head} {front : Bytes} {tag : UInt64}
    (hh : h.Spelled front) (hm : h.major = .tag) (ha : h.arg = some tag)
    (hno : ¬ (tag = 102 ∨ ∃ index, Tag.index? tag = some index)) (rest : Bytes) :
    (readConstructorIndex name (front ++ rest)).result =
    .error (.unknownConstructorTag name tag) := by
  rw [not_or, not_exists] at hno
  have hi : Tag.index? tag = none := Option.eq_none_iff_forall_ne_some.mpr hno.2
  rw [readConstructorIndex, bind_of_ok (Reads.scan (hh name) rest), if_neg (not_not.mpr hm), ha,
    Option.getD_some, hi]
  show ((if tag = Tag.general then _ else _ : Decoder UInt64) rest).result = _
  rw [if_neg (show ¬ tag = Tag.general from hno.1)]
  rfl

/-- The tags that stand in front of the fields of some index. -/
theorem form_of_tag_iff {h : Head} {front : Bytes} {tag : UInt64} (hh : h.Spelled front)
    (hm : h.major = .tag) (ha : h.arg = some tag) :
    (∃ index behind, ConstructorForm index (front ++ behind)) ↔
      tag = 102 ∨ ∃ index, Tag.index? tag = some index := by
  constructor
  · rintro ⟨index, behind, hform⟩
    generalize hfront : front ++ behind = bytes at hform
    have short {g : Head} {tag' : UInt64} (hg : g.Spelled bytes) (hga : g.arg = some tag')
        (hi : Tag.index? tag' = some index) : ∃ index, Tag.index? tag = some index := by
      have hback : front ++ behind = bytes ++ [] := by rw [hfront, List.append_nil]
      obtain ⟨rfl, -⟩ := hh.cancel hg hback
      obtain rfl := Option.some.inj (ha.symm.trans hga)
      exact ⟨index, hi⟩
    cases hform with
    | first hi hg hgm hga => exact .inr (short hg hga (Tag.index?_ofIndex? (Tag.ofIndex?_first hi)))
    | next hi hi' hg hgm hga =>
        exact .inr (short hg hga (Tag.index?_ofIndex? (Tag.ofIndex?_next hi hi')))
    | general hg hgm hga =>
      obtain ⟨rfl, -⟩ := hh.cancel hg hfront
      exact .inl (Option.some.inj (ha.symm.trans hga))
  · rintro (rfl | ⟨index, hi⟩)
    · obtain ⟨info, hp⟩ := headBytes_spelled .array 2 .minimal
      obtain ⟨info', hi⟩ := headBytes_spelled .unsigned 0 .minimal
      exact ⟨0, _, .general hh hm ha hp rfl rfl hi rfl rfl⟩
    · refine ⟨index, [], indexAt_iff.mp ?_⟩
      rw [List.append_nil]
      exact .short hh hm (by rw [ha]; exact hi)

/-- What refuses the front of a constructor or its array refuses the constructor. -/
theorem read_constructor_of_error {o : DecodeOptions} {depth : Nat} (hs : c.resolve t = .ok s)
    (hk : s.kind = .constructor) {bytes : Bytes} {e : DecodeError}
    (h : (s.readConstructor (c.codec.reading o depth) bytes).result = .error e) :
    (c.codec.read o (depth + 1) t bytes).result = .error e := by
  have hitem : (s.readItem (c.codec.reading o depth) c bytes).result = .error e := by
    rw [readItem_untagged (check_constructor (resolve_check hs).1 hk).1]
    refine bind_of_error ?_
    rw [Shape.readKind, hk]
    exact h
  rw [Codec.read_of_resolves hs]
  refine bind_of_error ?_
  show (s.readKept (c.codec.reading o depth) c bytes).result = .error e
  rw [Shape.readKept]
  split
  · refine bind_of_error ?_
    show ((s.readItem (c.codec.reading o depth) c bytes) >>= _).result = _
    rw [Outcome.result_bind, hitem]
    rfl
  · exact hitem

/-! ## 6. Constructors that are written -/

/-- **A constructor is written as the form its shape and its index ask for, then its array.** -/
theorem write_constructor_iff {o : EncodeOptions} {depth : Nat} (hs : c.resolve t = .ok s)
    (hk : s.kind = .constructor) {v : Value} (ht : v.type = t)
    (hraw : s.preserveRaw = true → v.notes.raw = none) {b : Bytes} :
    (c.codec.write o (depth + 1) t v).result = .ok b ↔ ∃ index front u, b = front ++ u ∧
      s.Emits v.notes.alternative index front ∧
        (s.writeArray (c.codec.writing o depth) v.asPieces).result = .ok u := by
  subst ht
  have hw := c.codec.writing_sound o depth
  have ha := resolve_alternative hs hk
  have htag : ∀ style, s.tagBefore style = [] := by
    intro style
    unfold Shape.tagBefore
    rw [(check_constructor (resolve_check hs).1 hk).1]
  have harray : ∀ {p : Pieces} {u : Bytes}, c.pieces v.type v = .ok p →
      s.ArrayAs (c.codec.writing o depth) p u →
      p = v.asPieces := by
    intro p u hp hu
    have hscalar : ∀ x, v.content ≠ .scalar x := by
      intro x hx
      rw [Catalog.pieces, if_neg (not_not.mpr rfl), hx] at hp
      obtain ⟨y, -, hp⟩ := Except.bind_eq_ok hp
      cases hp
      cases hu with
      | items _ hc _ => cases hc
      | fields _ hc _ _ => cases hc
    exact Except.ok.inj (hp.symm.trans (pieces_of_forWriting fun x hx => absurd hx (hscalar x)))
  rw [Codec.write_eq_ok]
  constructor
  · intro h
    cases h with
    | replayed hs' hp _ hr =>
      obtain rfl := Except.ok.inj (hs.symm.trans hs')
      rw [hraw hp] at hr
      cases hr
    | taken hs' _ hp hkind =>
      obtain rfl := Except.ok.inj (hs.symm.trans hs')
      cases hkind.constructorAs hk with
      | mk hi hu =>
        obtain rfl := harray hp hu
        rw [htag, List.nil_append]
        exact ⟨_, _, _, rfl, (emits_iff ha).mp ⟨_, hi, rfl⟩, (writeArray_eq_ok hw).mpr hu⟩
  · rintro ⟨index, front, u, rfl, hemits, hu⟩
    obtain ⟨general, hi, rfl⟩ := (emits_iff (p := v.asPieces) ha).mpr hemits
    have hu := (writeArray_eq_ok hw).mp hu
    have hpieces : c.codec.catalog.pieces v.type v = .ok v.asPieces :=
      pieces_of_forWriting fun x hx => by
        cases hu with
        | items _ hc _ => cases hx.symm.trans hc
        | fields _ hc _ _ => cases hx.symm.trans hc
    have htaken := Codec.WriteAs.taken hs hraw hpieces (.constructor hk (.mk hi hu))
    rwa [htag] at htaken

/-! ## 7. Constructors that are written and read back -/

/-- A constructor is built from the parts of an array that was written, where it is built by its
    shape. -/
theorem construct_array (hs : c.resolve t = .ok s) (hk : s.kind = .constructor)
    (hdefault : ∀ name, t = .named name → (c.declared name).conversion.Default) {p : Pieces}
    {u : Bytes} (h : s.ArrayAs w p u) {parts : Parts} (hp : parts.content = p.content.map id)
    (index : UInt64) (bytes : Bytes) :
    ∃ v, c.construct t s (s.constructorParts parts index bytes) = .ok v ∧
      v.content = p.content.map id := by
  rcases resolve_constructor hs hk with ⟨name, rfl⟩ | ⟨field, rfl⟩
  · have hconversion := hdefault name rfl
    have hcontent : c.contentOf s (c.declared name).conversion
        (s.constructorParts parts index bytes)
        (s.asksFor (c.declared name).conversion) = .ok (p.content.map id, 0) := by
      rw [Shape.asksFor, hconversion.asks]
      exact contentOf_array (fun _ => rfl) h (by rw [hk]; simp) (by rw [h.wire]; exact hp)
    exact ⟨_, construct_named hconversion hcontent, rfl⟩
  · have hlayout : s.layout = some (.items field) := by
      cases hs
      rfl
    cases h with
    | items hl hc hv =>
      rename_i item vs inner
      obtain rfl := Layout.items.inj (Option.some.inj (hlayout.symm.trans hl))
      rw [hc] at hp ⊢
      have htypes : ∀ z ∈ vs, z.type = field := by
        intro z hz
        obtain ⟨x, hx⟩ := hv.exists_of_mem hz
        exact hx.type
      have hitems : c.items field (s.constructorParts parts index bytes) = .ok (vs.map id) :=
        items_rebuilt (fun _ => rfl) htypes hp
      refine ⟨.anyConstructor field index (vs.map id), ?_, rfl⟩
      show (c.items field (s.constructorParts parts index bytes) >>= _) = _
      rw [hitems]
      rfl
    | fields hl => cases hlayout.symm.trans hl

/-- What writing and reading the constructors of a type come to. -/
structure Catalog.ConstructorForms (c : Catalog) (t : TypeExpr) (s : Shape) : Prop where
  /-- A value is written as the form that its shape and its index ask for, and its array. -/
  written : ∀ (o : EncodeOptions) depth v b, v.type = t →
    (s.preserveRaw = true → v.notes.raw = none) →
    ((c.codec.write o (depth + 1) t v).result = .ok b ↔ ∃ index front u, b = front ++ u ∧
      s.Emits v.notes.alternative index front ∧
        (s.writeArray (c.codec.writing o depth) v.asPieces).result = .ok u)
  /-- What is read behind any form of an index is what is built from the array, with this index. -/
  read : ∀ (o : DecodeOptions) depth index front u v, ConstructorForm index front →
    ((c.codec.read o (depth + 1) t).Reads (front ++ u) v ↔ s.Takes index ∧
      ∃ parts, (s.readArray (c.codec.reading o depth)).Reads u parts ∧
        c.construct t s (s.constructorParts parts index (front ++ u)) = .ok v)
  /-- Every form of an index is read as this index and the same fields. -/
  same : ∀ (o : DecodeOptions) depth index front front' u v, ConstructorForm index front →
    ConstructorForm index front' → (c.codec.read o (depth + 1) t).Reads (front ++ u) v →
      v.notes.alternative = some index ∧
        ∃ v', (c.codec.read o (depth + 1) t).Reads (front' ++ u) v' ∧
        v'.content = v.content ∧ v'.notes.alternative = some index
  /-- Whatever is read starts with a form of the index it has. -/
  index : ∀ (o : DecodeOptions) depth bytes v rest,
    (c.codec.read o (depth + 1) t bytes).result = .ok (v, rest) → ∃ index front u,
      bytes = front ++ u ++ rest ∧ ConstructorForm index front ∧ s.Takes index ∧
        v.notes.alternative = some index ∧ (c.codec.read o (depth + 1) t).Reads (front ++ u) v
  /-- A type that fixes an index takes this one, and names it where it refuses another. -/
  fixed : ∀ fixed index, s.Fixes fixed → (s.Takes index ↔ index = fixed) ∧
    ∀ (o : DecodeOptions) depth front rest, ConstructorForm index front → index ≠ fixed →
      (c.codec.read o (depth + 1) t (front ++ rest)).result =
        .error (.constructorIndexMismatch s.name fixed index)
  /-- A tag stands in front of some index if it is the general one or a short one; others are
      refused. -/
  tags : ∀ (h : Head) front tag, h.Spelled front → h.major = .tag → h.arg = some tag →
    ((∃ index behind, ConstructorForm index (front ++ behind)) ↔
      tag = 102 ∨ ∃ index, Tag.index? tag = some index) ∧
    (¬ (tag = 102 ∨ ∃ index, Tag.index? tag = some index) → ∀ (o : DecodeOptions) depth rest,
      (c.codec.read o (depth + 1) t (front ++ rest)).result =
        .error (.unknownConstructorTag s.name tag))
  /-- A type that is built by its shape reads back what it writes, the index and the fields, and so
      it reads every other form of this index. The limits have to hold the bytes, and each field to
      be read back. -/
  back : (∀ name, t = .named name → (c.declared name).conversion.Default) →
    ∀ (o : EncodeOptions) (o' : DecodeOptions) depth depth' v b, v.type = t →
    (s.preserveRaw = true → v.notes.raw = none) → (c.codec.write o (depth + 1) t v).result = .ok b →
    b.length ≤ o'.maxStringLength.toNat → b.length ≤ o'.maxCollectionLength.toNat →
    (∀ z ∈ v.content.parts, ∀ x, (c.codec.write o depth z.type z).result = .ok x →
      c.codec.trial o' depth' z.type x = .ok z) → s.NeverNull (c.codec.writing o depth) v.content →
    ∃ index front u, b = front ++ u ∧ s.Emits v.notes.alternative index front ∧
      ∀ front', ConstructorForm index front' →
        ∃ v', (c.codec.read o' (depth' + 1) t).Reads (front' ++ u) v' ∧ v'.content = v.content ∧
          v'.notes.alternative = some index

namespace Catalog.ConstructorForms

variable (hs : c.resolve t = .ok s) (hk : s.kind = .constructor)

include hs hk

/-- Whatever is read starts with a form of its index. -/
theorem of_read {o : DecodeOptions} {depth : Nat} {bytes rest : Bytes} {v : Value}
    (h : (c.codec.read o (depth + 1) t bytes).result = .ok (v, rest)) : ∃ index front u,
      bytes = front ++ u ++ rest ∧ ConstructorForm index front ∧ s.Takes index ∧
        v.notes.alternative = some index ∧ (c.codec.read o (depth + 1) t).Reads (front ++ u) v := by
  have hr := c.codec.sound o depth
  have htag := (check_constructor (resolve_check hs).1 hk).1
  have kind {parts : Parts} {u : Bytes} (h : s.KeptAt (c.codec.reading o depth) parts u) :
      ∃ parts', s.ConstructorAt (c.codec.reading o depth) parts' u := by
    have untagged {parts : Parts} (h : s.ItemAt (c.codec.reading o depth) parts u) :
        ∃ parts', s.ConstructorAt (c.codec.reading o depth) parts' u := by
      cases h with
      | untagged _ hkind => exact ⟨_, hkind.constructorAt hk⟩
      | absent ht => cases htag.symm.trans ht
      | tagged ht => cases htag.symm.trans ht
    cases h with
    | kept _ h => exact untagged h
    | dropped _ h => exact untagged h
  obtain ⟨used, rfl, hreads, hat⟩ := Codec.read_yields hr t bytes v rest h
  obtain ⟨parts, hkept, hv⟩ := hat.keptAt hs
  obtain ⟨parts', hconstructor⟩ := kind hkept
  cases hconstructor with
  | mk hi hc ha =>
    have hform := indexAt_iff.mp hi
    obtain ⟨htakes, parts'', -, rfl⟩ := (Shape.keptAt_constructor_iff htag hk hform).mp hkept
    exact ⟨_, _, _, rfl, hform, htakes, (construct_constructor hs hk hv).1, hreads⟩

/-- A type that is built by its shape reads back what it writes, under every form of the index. -/
theorem reads_back (hdefault : ∀ name, t = .named name → (c.declared name).conversion.Default)
    {o : EncodeOptions} {o' : DecodeOptions} {depth depth' : Nat} {v : Value} {b : Bytes}
    (ht : v.type = t) (hraw : s.preserveRaw = true → v.notes.raw = none)
    (hb : (c.codec.write o (depth + 1) t v).result = .ok b)
    (hstring : b.length ≤ o'.maxStringLength.toNat)
    (hcount : b.length ≤ o'.maxCollectionLength.toNat)
    (hfields : ∀ z ∈ v.content.parts, ∀ x, (c.codec.write o depth z.type z).result = .ok x →
      c.codec.trial o' depth' z.type x = .ok z)
    (hnull : s.NeverNull (c.codec.writing o depth) v.content) :
    ∃ index front u, b = front ++ u ∧ s.Emits v.notes.alternative index front ∧
      ∀ front', ConstructorForm index front' →
        ∃ v', (c.codec.read o' (depth' + 1) t).Reads (front' ++ u) v' ∧ v'.content = v.content ∧
          v'.notes.alternative = some index := by
  obtain ⟨index, front, u, rfl, hemits, hu⟩ := (write_constructor_iff hs hk ht hraw).mp hb
  refine ⟨index, front, u, rfl, hemits, fun front' hform => ?_⟩
  have harray := (writeArray_eq_ok (c.codec.writing_sound o depth)).mp hu
  have hle : u.length ≤ (front ++ u).length := by
    rw [List.length_append]
    omega
  have hechoed : ∀ z ∈ v.asPieces.content.parts,
      Echoed (c.codec.writing o depth) (c.codec.reading o' depth') id u.length z := by
    intro z hz t x _ hx
    obtain ⟨hwrites, rfl⟩ := hx
    exact ⟨partAt_of_trial (hfields z hz x hwrites), hwrites, rfl⟩
  have hread := harray.read hechoed ⟨Nat.le_trans hle hstring, Nat.le_trans hle hcount⟩ hnull
  have hid : v.asPieces.content.map id = v.content := by
    rw [Value.asPieces]
    cases v.content <;> simp [Content.map]
  let parts : Parts := {
    name := s.name
    content := v.asPieces.content.map id
    style := { indefinite := (c.codec.writing o depth).indefinite s.length v.asPieces.style } }
  have hparts : parts.content = v.asPieces.content.map id := rfl
  obtain ⟨v', hv', hcontent⟩ := construct_array hs hk hdefault harray hparts index (front' ++ u)
  have hreads := (read_constructor_iff hs hk hform).mpr
    ⟨hemits.form.2, parts, readArray_reads hread, hv'⟩
  exact ⟨v', hreads, hcontent.trans hid, (construct_constructor hs hk hv').1⟩

end Catalog.ConstructorForms

/-- **The forms of constructors are inverse to each other over all indexes.** Items that stand for
    different indexes never coincide, the short tags and the indexes that have one are inverse to
    each other, and the general tag is none of them. -/
theorem Catalog.constructor_forms (c : Catalog) {t : TypeExpr} {s : Shape}
    (hs : c.resolve t = .ok s) (hk : s.kind = .constructor) : c.ConstructorForms t s ∧
      (∀ index index' front front' u u', ConstructorForm index front →
        ConstructorForm index' front' →
        front ++ u = front' ++ u' → index = index') ∧
      (∀ index tag, Tag.ofIndex? index = some tag ↔ Tag.index? tag = some index) ∧
      Tag.index? 102 = none ∧ ∀ index, Tag.ofIndex? index ≠ some 102 := by
  refine ⟨⟨?written, ?read, ?same, ?index, ?fixed, ?tags, ?back⟩, ?_,
    fun _ _ => Tag.ofIndex?_eq_some_iff,
    Tag.index?_general, Tag.ofIndex?_ne_general⟩
  case written => exact fun o depth v b ht hraw => write_constructor_iff hs hk ht hraw
  case read => exact fun o depth index front u v hi => read_constructor_iff hs hk hi
  case same =>
    intro o depth index front front' u v hi hi' h
    obtain ⟨htakes, parts, ha, hv⟩ := (read_constructor_iff hs hk hi).mp h
    obtain ⟨halternative, hsame⟩ := construct_constructor hs hk hv
    obtain ⟨v', hv', hcontent⟩ := hsame index (front' ++ u)
    exact ⟨halternative, v', (read_constructor_iff hs hk hi').mpr ⟨htakes, parts, ha, hv'⟩,
      hcontent,
      (construct_constructor hs hk hv').1⟩
  case index => exact fun o depth bytes v rest h => ConstructorForms.of_read hs hk h
  case fixed =>
    intro fixed index hf
    refine ⟨⟨fun h => h fixed hf, ?_⟩, fun o depth front rest hi hne => ?_⟩
    · rintro rfl
      exact hf.takes
    · refine read_constructor_of_error hs hk ?_
      rw [Shape.readConstructor, bind_of_ok (readConstructorIndex_reads (indexAt_iff.mpr hi) rest)]
      refine bind_of_error ?_
      rw [checkIndex_of_fixes hf hne]
      rfl
  case tags =>
    intro h front tag hh hm ha
    refine ⟨form_of_tag_iff hh hm ha, fun hno o depth rest => ?_⟩
    refine read_constructor_of_error hs hk ?_
    rw [Shape.readConstructor]
    exact bind_of_error (readConstructorIndex_unknown hh hm ha hno rest)
  case back =>
    intro hdefault o o' depth depth' v b ht hraw hb hstring hcount hfields hnull
    exact ConstructorForms.reads_back hs hk hdefault ht hraw hb hstring hcount hfields hnull
  · intro index index' front front' u u' hi hi' he
    exact ((indexAt_iff.mpr hi).cancel (indexAt_iff.mpr hi') he).1

/-- A type that fixes the index 6: a value is written with the short tag 127, and is read back from
    the general form as well, here under a wider head than the index needs. -/
theorem Catalog.six_has_two_forms :
    let c : Catalog := {
      declared := fun _ => { schema := (Schema.constructor 6).withValue (.int 0) .uint64 .required }
      printName := fun _ => "six" }
    let v : Value := .node (.named "six") (.fields [some (.ofScalar .uint64 (.uint 5))])
      { alternative := some 6 }
    (c.codec.encode v).result = .ok [0xd8, 0x7f, 0x81, 0x05] ∧
      (c.codec.decode (.named "six") [0xd8, 0x7f, 0x81, 0x05]).result = .ok v ∧
      (c.codec.decode (.named "six") [0xd8, 0x66, 0x82, 0x18, 0x06, 0x81, 0x05]).result = .ok v ∧
      ∃ s, c.resolve (.named "six") = .ok s ∧ s.kind = .constructor ∧
        c.ConstructorForms (.named "six") s := by
  intro c v
  exact ⟨by cbv, by cbv, by cbv, _, rfl, rfl, (c.constructor_forms rfl rfl).1⟩

end CborSchema
