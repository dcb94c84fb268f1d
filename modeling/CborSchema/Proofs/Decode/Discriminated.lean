import CborSchema.Proofs.Decode.Unique
import CborSchema.Proofs.Roundtrip.Values
import Mathlib.Data.List.Pairwise

/-!
# Candidates that are told apart

Types that no item is of at once, and unions of such types.

* `Shape.Discriminated` -- two shapes that ask for different things in one place: a literal at a
  position or under a key, the index of a constructor, a tag that must be there;
* `Positional.literal_at`, `MapAt.literal_at`, `ItemAt.required_tag` -- what is asked for stands in
  this place, in whatever way the item is spelled;
* `Shape.Discriminated.disjoint` -- **no bytes are read as both**;
* `Catalog.Reordered` -- another order of the candidates of unions that are told apart;
* `Catalog.discriminated_candidates_commute` -- **what is read does not depend on this order.**
-/

namespace CborSchema

open Decoder

variable {s s' : Shape} {r r' : Reading} {t : TypeExpr}

/-! ## 1. Shapes that are told apart -/

/-- The index that a constructor must have, if it must have one. -/
def Alternative.index? : Alternative → Option UInt64
  | .index i => some i
  | .general i => some i
  | .any => none

/-- Two shapes that ask for different things in one place. -/
inductive Shape.Discriminated (s s' : Shape) : Prop where
  /-- Positional lists with different literals at the same position. -/
  | position {fields fields' : List Field} {i : Nat} {f f' : Field} {l l' : Literal}
      (hk : s.kind = .list) (hk' : s'.kind = .list) (hl : s.layout = some (.fields fields))
      (hl' : s'.layout = some (.fields fields')) (hf : fields[i]? = some f)
      (hf' : fields'[i]? = some f') (hb : f.body = .literal l) (hb' : f'.body = .literal l')
      (hne : l ≠ l') : Discriminated s s'
  /-- Constructors with different fixed indexes. -/
  | index {a a' : Alternative} {i i' : UInt64} (hk : s.kind = .constructor)
      (hk' : s'.kind = .constructor) (ha : s.alternative = some a) (ha' : s'.alternative = some a')
      (hi : a.index? = some i) (hi' : a'.index? = some i') (hne : i ≠ i') : Discriminated s s'
  /-- Keyed maps with different literals under the same key. -/
  | key {fields fields' : List Field} {f f' : Field} {l l' : Literal} (hk : s.kind = .map)
      (hk' : s'.kind = .map) (hl : s.layout = some (.fields fields))
      (hl' : s'.layout = some (.fields fields')) (hf : f ∈ fields) (hf' : f' ∈ fields')
      (hkey : f.key = f'.key) (hb : f.body = .literal l) (hb' : f'.body = .literal l')
      (hne : l ≠ l') : Discriminated s s'
  /-- Different required tags. -/
  | tag {a a' : UInt64} (ht : s.tag = some (.required a)) (ht' : s'.tag = some (.required a'))
      (hne : a ≠ a') : Discriminated s s'

theorem Shape.Discriminated.symm (h : s.Discriminated s') : s'.Discriminated s := by
  cases h with
  | position hk hk' hl hl' hf hf' hb hb' hne =>
    exact .position hk' hk hl' hl hf' hf hb' hb (Ne.symm hne)
  | index hk hk' ha ha' hi hi' hne => exact .index hk' hk ha' ha hi' hi (Ne.symm hne)
  | key hk hk' hl hl' hf hf' hkey hb hb' hne =>
    exact .key hk' hk hl' hl hf' hf hkey.symm hb' hb (Ne.symm hne)
  | tag ht ht' hne => exact .tag ht' ht (Ne.symm hne)

/-! ## 2. Positions -/

theorem presence_of_literal {f : Field} {l : Literal} (hb : f.body = .literal l) :
    f.presence = .required := by
  rw [Field.presence, hb]

/-- Where no element is to come, no field holds a literal. -/
theorem Positional.no_literal {name : String} {fields : List Field} {e' : Pending}
    {slots : List (Option Value)} {u : Bytes}
    (h : Positional r name fields (.counted 0) slots e' u) :
    ∀ f ∈ fields, f.presence = .optional := by
  generalize he : Pending.counted 0 = e at h
  induction h with
  | nil => simp
  | literal hf hmore hx _ _ =>
    subst he
    cases hmore
  | value hf hmore hx _ _ =>
    subst he
    cases hmore
  | absent hf _ _ ih => exact List.forall_mem_cons.mpr ⟨hf, ih rfl⟩

/-- **A literal at a position stands behind as many items.** -/
theorem Positional.literal_at {name : String} {fields : List Field} {e e' : Pending}
    {slots : List (Option Value)} {u : Bytes} (h : Positional r name fields e slots e' u) {i : Nat}
    {f : Field} {l : Literal} (hf : fields[i]? = some f) (hb : f.body = .literal l) :
    ∃ a x b, u = a ++ (x ++ b) ∧ InRow IsItem i a ∧
      LiteralAt name r.options.maxStringLength l x := by
  induction h generalizing i with
  | nil => cases hf
  | literal hf' he hx hs ih =>
    rename_i x u
    cases i with
    | zero =>
      cases hf
      obtain rfl := FieldBody.literal.inj (hf'.symm.trans hb)
      exact ⟨[], x, u, rfl, .nil, hx⟩
    | succ i =>
      obtain ⟨a, y, b, rfl, ha, hy⟩ := ih hf
      exact ⟨x ++ a, y, b, by rw [List.append_assoc], .cons hx.isItem ha, hy⟩
  | value hf' he hx hs ih =>
    rename_i x u
    cases i with
    | zero =>
      cases hf
      cases hf'.symm.trans hb
    | succ i =>
      obtain ⟨a, y, b, rfl, ha, hy⟩ := ih hf
      exact ⟨x ++ a, y, b, by rw [List.append_assoc], .cons hx.isItem ha, hy⟩
  | absent hf' he hs ih =>
    -- the fields from here on are all absent, and a literal never is
    have hpresence : f.presence = .optional := by
      rcases List.mem_cons.mp (List.mem_of_getElem? hf) with rfl | hmem
      · exact hf'
      · exact hs.no_literal f hmem
    rw [presence_of_literal hb] at hpresence
    cases hpresence

/-- The literal at a position of an array. -/
theorem Shape.ArrayAt.literal_at {parts : Parts} {u : Bytes} (h : s.ArrayAt r parts u)
    {fields : List Field} {i : Nat} {f : Field} {l : Literal}
    (hl : s.layout = some (.fields fields)) (hf : fields[i]? = some f) (hb : f.body = .literal l) :
    ∃ e front a x b,
      u = front ++ (a ++ (x ++ b)) ∧ s.Opens r .array e front ∧ InRow IsItem i a ∧
        LiteralAt s.name r.options.maxStringLength l x := by
  cases h with
  | items hl' => cases hl'.symm.trans hl
  | fields hl' ho hp hrest hx hk =>
    obtain rfl := Layout.fields.inj (Option.some.inj (hl'.symm.trans hl))
    obtain ⟨a, x, b, rfl, ha, hx⟩ := hp.literal_at hf hb
    rename_i front _ w _
    exact ⟨_, front, a, x, b ++ w, by simp only [List.append_assoc], ho, ha, hx⟩

/-! ## 3. Keys -/

/-- A field that was read was read in a step of its own, behind as many entries. -/
theorem keyedStep_of_found {fields : List Field} {k : Nat} {found found' : Found} {inner : Bytes}
    (h : Steps (KeyedStep s r fields) k found inner found') {key : FieldKey}
    (hnew : key ∉ found.map Prod.fst) (hkey : key ∈ found'.map Prod.fst) :
    ∃ j a x b t o, inner = a ++ (x ++ b) ∧ InRow IsItem (j * 2) a ∧
      KeyedStep s r fields t x ((key, o) :: t) := by
  induction h with
  | nil => exact absurd hkey hnew
  | cons hx hs ih =>
    rename_i found mid found' x bytes k
    by_cases hmid : key ∈ mid.map Prod.fst
    · have hstep : ∃ o, mid = (key, o) :: found := by
        cases hx with
        | unknown => exact absurd hmid hnew
        | literal hk hf hnew' hb hv =>
          rcases List.mem_cons.mp hmid with rfl | hmid
          · exact ⟨_, rfl⟩
          · exact absurd hmid hnew
        | value hk hf hnew' hb hv =>
          rcases List.mem_cons.mp hmid with rfl | hmid
          · exact ⟨_, rfl⟩
          · exact absurd hmid hnew
      obtain ⟨o, rfl⟩ := hstep
      exact ⟨0, [], x, bytes, found, o, rfl, .nil, hx⟩
    · obtain ⟨j, a, y, b, t, o, rfl, ha, hy⟩ := ih hmid hkey
      refine ⟨j + 1, x ++ a, y, b, t, o, by rw [List.append_assoc], ?_, hy⟩
      rw [Nat.succ_mul, Nat.add_comm]
      exact hx.inRow.append ha

/-- **There is a step for each entry.** -/
theorem keyedStep_at {fields : List Field} {k : Nat} {found found' : Found} {inner : Bytes}
    (h : Steps (KeyedStep s r fields) k found inner found') {j : Nat} {a x b : Bytes}
    (hinner : inner = a ++ (x ++ b)) (ha : InRow IsItem (j * 2) a) (hx : InRow IsItem 2 x) :
    ∃ t t', KeyedStep s r fields t x t' := by
  induction h generalizing j a with
  | nil =>
    have hnil := (List.append_eq_nil_iff.mp (List.append_eq_nil_iff.mp hinner.symm).2).1
    exact absurd hnil hx.startsItem.ne_nil
  | cons hy _ ih =>
    cases j with
    | zero =>
      rw [Nat.zero_mul] at ha
      cases ha
      obtain ⟨rfl, _⟩ := hy.inRow.cancel hx hinner
      exact ⟨_, _, hy⟩
    | succ j =>
      rw [Nat.succ_mul, Nat.add_comm] at ha
      obtain ⟨a, a', rfl, ha, ha'⟩ := ha.split
      rw [List.append_assoc] at hinner
      obtain ⟨_, hrest⟩ := hy.inRow.cancel ha hinner
      exact ih hrest ha'

theorem checkPresent_found {name : String} {found : Found} {fields : List Field}
    (h : checkPresent name found fields = .ok ()) {f : Field} (hf : f ∈ fields)
    (hp : f.presence ≠ .optional) : f.key ∈ found.map Prod.fst := by
  induction fields with
  | nil => cases hf
  | cons f' fs ih =>
    rw [checkPresent] at h
    split at h
    · cases h
    · rename_i hno
      rcases List.mem_cons.mp hf with rfl | hf
      · refine any_key_eq.mp ?_
        simpa [hp] using hno
      · exact ih h hf

/-- **In the step for its key a field that holds a literal is read as it.** -/
theorem KeyedStep.literal_under {fields : List Field} {t t' : Found} {x y v : Bytes} {f : Field}
    {l : Literal} (h : KeyedStep s r fields t x t') (hn : (fields.map Field.key).Nodup)
    (hf : f ∈ fields) (hb : f.body = .literal l) (hx : x = y ++ v)
    (hy : KeyAt r' (.field f.key) y) : LiteralAt s.name r.options.maxStringLength l v := by
  obtain ⟨_, _, hunder⟩ := h.under hn hf hx hy
  rcases hunder with ⟨l', hb', hv, _⟩ | ⟨type, presence, z, hb', _, _⟩
  · obtain rfl := FieldBody.literal.inj (hb'.symm.trans hb)
    exact hv
  · cases hb'.symm.trans hb

/-- **The literal under a key of a map stands behind its key**, in whatever entry. -/
theorem Shape.MapAt.literal_at {parts : Parts} {u : Bytes} (h : s.MapAt r parts u)
    {fields : List Field} (hl : s.layout = some (.fields fields))
    (hn : (fields.map Field.key).Nodup) {f : Field} (hf : f ∈ fields) {l : Literal}
    (hb : f.body = .literal l) :
    ∃ e front k inner w found j a y v b, u = front ++ w ∧ s.Opens r .map e front ∧
      e.Body k inner w ∧ Steps (KeyedStep s r fields) k [] inner found ∧
      inner = a ++ ((y ++ v) ++ b) ∧ InRow IsItem (j * 2) a ∧ KeyAt r (.field f.key) y ∧
      LiteralAt s.name r.options.maxStringLength l v := by
  cases h with
  | entries hl' => cases hl'.symm.trans hl
  | fields hl' ho hbody hs hc =>
    obtain rfl := Layout.fields.inj (Option.some.inj (hl'.symm.trans hl))
    rename_i e found k front inner w
    have hfound := checkPresent_found hc hf (by rw [presence_of_literal hb]; simp)
    obtain ⟨j, a, x, b, t, o, rfl, ha, hx⟩ := keyedStep_of_found hs (by simp) hfound
    have hentry : ∃ y v, x = y ++ v ∧ KeyAt r (.field f.key) y := by
      generalize ht : (f.key, o) :: t = t' at hx
      cases hx with
      | unknown hk hnone he hv => exact absurd (congrArg List.length ht) (by simp)
      | literal hk hsome hnew hb' hv =>
        obtain ⟨hkey, _⟩ := Prod.mk.inj (List.cons.inj ht).1
        have heq := List.find?_some hsome
        rw [beq_iff_eq] at heq
        exact ⟨_, _, rfl, by rw [hkey, ← heq]; exact hk⟩
      | value hk hsome hnew hb' hv =>
        obtain ⟨hkey, _⟩ := Prod.mk.inj (List.cons.inj ht).1
        have heq := List.find?_some hsome
        rw [beq_iff_eq] at heq
        exact ⟨_, _, rfl, by rw [hkey, ← heq]; exact hk⟩
    obtain ⟨y, v, rfl, hy⟩ := hentry
    exact ⟨e, front, k, _, w, found, j, a, y, v, b, rfl, ho, hbody, hs, rfl, ha, hy,
      hx.literal_under hn hf hb rfl hy⟩

/-! ## 4. Tags and indexes -/

/-- **A tag that must be there is there.** -/
theorem Shape.ItemAt.required_tag {parts : Parts} {u : Bytes} (h : s.ItemAt r parts u) {a : UInt64}
    (ht : s.tag = some (.required a)) : ∃ h, StartsHead h u ∧ h.arg.getD 0 = a := by
  cases h with
  | untagged ht' hk =>
    rw [ht] at ht'
    cases ht'
  | absent ht' hh hm hk =>
    rw [ht] at ht'
    cases ht'
  | tagged ht' hh hm ha hk =>
    rw [ht] at ht'
    cases ht'
    exact ⟨_, hh.starts _, ha⟩

/-- The index that is read is the one that is asked for. -/
theorem checkIndex_eq_ok {index i : UInt64} (h : s.checkIndex index = .ok ()) {a : Alternative}
    (ha : s.alternative = some a) (hi : a.index? = some i) : index = i := by
  unfold Shape.checkIndex at h
  rw [ha] at h
  cases a with
  | index j =>
    cases hi
    dsimp only at h
    split at h
    · rename_i heq
      exact heq.symm
    · cases h
  | general j =>
    cases hi
    dsimp only at h
    split at h
    · rename_i heq
      exact heq.symm
    · cases h
  | any => cases hi

/-- **A constructor that must have an index starts with it.** -/
theorem Shape.ItemAt.fixed_index {parts : Parts} {u : Bytes} (h : s.ItemAt r parts u)
    (hs : s.check t = .ok ()) (hk : s.kind = .constructor) {a : Alternative} {i : UInt64}
    (ha : s.alternative = some a) (hi : a.index? = some i) :
    ∃ front inner, u = front ++ inner ∧ IndexAt i front := by
  cases h with
  | untagged ht hkind =>
    cases hkind.constructorAt hk with
    | mk hindex hc harray =>
      obtain rfl := checkIndex_eq_ok hc ha hi
      exact ⟨_, _, rfl, hindex⟩
  | absent ht hh hm hkind => cases ht.symm.trans (check_constructor hs hk).1
  | tagged ht hh hm harg hkind => cases ht.symm.trans (check_constructor hs hk).1

/-! ## 5. Bytes that are read as both -/

/-- Two collections that start in the same bytes, each behind a tag if it has one, start with the
    same head. -/
theorem Shape.Opens.cancel_behind {m m' : Major} {e e' : Pending}
    {front front' x x' u u' : Bytes} (h : s.Opens r m e x) (hm : m ≠ .tag)
    (h' : s'.Opens r' m' e' x') (hm' : m' ≠ .tag)
    (hf : front = [] ∨ ∃ h : Head, h.Spelled front ∧ h.major = .tag)
    (hf' : front' = [] ∨ ∃ h : Head, h.Spelled front' ∧ h.major = .tag)
    (hb : front ++ (x ++ u) = front' ++ (x' ++ u')) : m = m' ∧ e = e' ∧ x = x' ∧ u = u' := by
  obtain ⟨g, hg, hgm⟩ := h.startsHead u
  obtain ⟨g', hg', hgm'⟩ := h'.startsHead u'
  exact h.cancel h' (behind_tag_unique hf hf' ⟨g, hg, hgm ▸ hm⟩ ⟨g', hg', hgm' ▸ hm'⟩ hb)

/-- **No bytes are read as both of two shapes that are told apart**, whatever the limits of the two
    readings and however they read the parts. -/
theorem Shape.Discriminated.disjoint (h : s.Discriminated s') {t' : TypeExpr}
    (hs : s.check t = .ok ()) (hs' : s'.check t' = .ok ()) {parts parts' : Parts} {u : Bytes}
    (hu : s.ItemAt r parts u) (hu' : s'.ItemAt r' parts' u) : False := by
  cases h with
  | position hk hk' hl hl' hf hf' hb hb' hne =>
    obtain ⟨front, inner, p, rfl, hi, _, _, htag⟩ := hu.behind_tag
    obtain ⟨front', inner', p', e, hi', _, _, htag'⟩ := hu'.behind_tag
    obtain ⟨_, opening, a, x, b, hinner, ho, ha, hx⟩ := (hi.arrayAt hk).literal_at hl hf hb
    obtain ⟨_, opening', a', x', b', hinner', ho', ha', hx'⟩ :=
      (hi'.arrayAt hk').literal_at hl' hf' hb'
    rw [hinner, hinner'] at e
    obtain ⟨_, _, _, hsame⟩ := ho.cancel_behind (by simp) ho' (by simp) htag htag' e
    obtain ⟨_, hsame⟩ := ha.cancel ha' hsame
    obtain ⟨rfl, _⟩ := hx.isItem.cancel hx'.isItem hsame
    exact hne (hx.unique hx')
  | index hk hk' ha ha' hi hi' hne =>
    obtain ⟨front, inner, rfl, hindex⟩ := hu.fixed_index hs hk ha hi
    obtain ⟨front', inner', e, hindex'⟩ := hu'.fixed_index hs' hk' ha' hi'
    exact hne (hindex.cancel hindex' e).1
  | key hk hk' hl hl' hf hf' hkey hb hb' hne =>
    have hn := check_keys hs hk
    have hn' := check_keys hs' hk'
    rw [fields_of_layout hl] at hn
    rw [fields_of_layout hl'] at hn'
    obtain ⟨front, inner, p, rfl, hi, _, _, htag⟩ := hu.behind_tag
    obtain ⟨front', inner', p', e, hi', _, _, htag'⟩ := hu'.behind_tag
    obtain ⟨_, opening, k, entries, w, _, j, a, y, v, b, hinner, ho, hbody, hsteps, hentries,
      ha, hy, hv⟩ :=
      (hi.mapAt hk).literal_at hl hn hf hb
    obtain ⟨_, opening', k', entries', w', _, _, _, _, _, _, hinner', ho', hbody', hsteps', _⟩ :=
      (hi'.mapAt hk').literal_at hl' hn' hf' hb'
    rw [hinner, hinner'] at e
    obtain ⟨_, rfl, _, rfl⟩ := ho.cancel_behind (by simp) ho' (by simp) htag htag' e
    obtain ⟨_, rfl⟩ := hbody.unique hbody' (by decide) (keyedSteps_inRow hsteps)
      (keyedSteps_inRow hsteps')
    -- the entry that holds the literal of the one is an entry of the other
    have hentry := (InRow.single hy.isItem).append (InRow.single hv.isItem)
    obtain ⟨t, t', hstep⟩ := keyedStep_at hsteps' hentries ha hentry
    rw [hkey] at hy
    exact hne (hv.unique (hstep.literal_under hn' hf' hb' rfl hy))
  | tag ht ht' hne =>
    obtain ⟨g, hg, ha⟩ := hu.required_tag ht
    obtain ⟨g', hg', ha'⟩ := hu'.required_tag ht'
    obtain rfl := hg.unique hg'
    exact hne (ha.symm.trans ha')

/-! ## 6. Types that are told apart -/

namespace Catalog

/-- Two types whose shapes are told apart. -/
def Discriminated (c : Catalog) (t t' : TypeExpr) : Prop :=
  ∃ s s', c.resolve t = .ok s ∧ c.resolve t' = .ok s' ∧ s.Discriminated s'

variable {c c' : Catalog}

theorem Discriminated.symm {t t' : TypeExpr} (h : c.Discriminated t t') : c.Discriminated t' t := by
  obtain ⟨s, s', hs, hs', h⟩ := h
  exact ⟨s', s, hs', hs, h.symm⟩

instance : Std.Symm c.Discriminated := ⟨fun _ _ h => h.symm⟩

/-- What is read of a type that resolves is an item of its shape. -/
theorem itemAt_of_reads {o : DecodeOptions} {n : Nat} {t : TypeExpr} {s : Shape}
    (hs : c.resolve t = .ok s) {u : Bytes} {v : Value} (h : (c.codec.read o n t).Reads u v) :
    ∃ r parts, s.ItemAt r parts u := by
  cases n with
  | zero => exact absurd h Codec.not_reads_zero
  | succ n =>
    obtain ⟨parts, hk, -⟩ := (Codec.readAt_of_reads (c.codec.sound o n) h).keptAt hs
    cases hk with
    | kept hp hi => exact ⟨_, _, hi⟩
    | dropped hp hi => exact ⟨_, _, hi⟩

/-- **No bytes are read as both of two types that are told apart.** -/
theorem Discriminated.disjoint {t t' : TypeExpr} (h : c.Discriminated t t') {o o' : DecodeOptions}
    {n n' : Nat} {u : Bytes} {v v' : Value} (hv : (c.codec.read o n t).Reads u v)
    (hv' : (c.codec.read o' n' t').Reads u v') : False := by
  obtain ⟨s, s', hs, hs', hd⟩ := h
  obtain ⟨r, parts, hu⟩ := itemAt_of_reads hs hv
  obtain ⟨r', parts', hu'⟩ := itemAt_of_reads hs' hv'
  exact hd.disjoint (resolve_check hs).1 (resolve_check hs').1 hu hu'

/-! ## 7. Another order -/

/-- A catalog that differs, below a type, in nothing but the order of the candidates of unions whose
    candidates are told apart. All types there resolve. -/
structure Reordered (c c' : Catalog) (t : TypeExpr) : Prop where
  names : c'.printName = c.printName
  keys : c'.compareKeys = c.compareKeys
  conversion : ∀ name, (c'.declared name).conversion = (c.declared name).conversion
  shapes : ∀ u, c.Reaches t u → ∃ s ts, c.resolve u = .ok s ∧
    c'.resolve u = .ok { s with candidates := ts } ∧ ts.Perm s.candidates ∧
      (ts = s.candidates ∨ s.candidates.Pairwise c.Discriminated)

/-- Types that name no others are all that is reached from one of them. -/
theorem Reordered.of_closed {t : TypeExpr} (us : List TypeExpr) (ht : t ∈ us)
    (names : c'.printName = c.printName) (keys : c'.compareKeys = c.compareKeys)
    (conversion : ∀ name, (c'.declared name).conversion = (c.declared name).conversion)
    (hus : ∀ u ∈ us, ∃ s ts, c.resolve u = .ok s ∧ c'.resolve u = .ok { s with candidates := ts } ∧
      (∀ u' ∈ s.partTypes, u' ∈ us) ∧ ts.Perm s.candidates ∧
        (ts = s.candidates ∨ s.candidates.Pairwise c.Discriminated)) : c.Reordered c' t := by
  have hreached : ∀ u, c.Reaches t u → u ∈ us := fun u hu => hu.mem_of_closed ht fun u hu => by
    obtain ⟨s, _, hs, _, hparts, _⟩ := hus u hu
    exact ⟨s, hs, hparts⟩
  refine ⟨names, keys, conversion, fun u hu => ?_⟩
  obtain ⟨s, ts, hs, hs', _, hperm, horder⟩ := hus u (hreached u hu)
  exact ⟨s, ts, hs, hs', hperm, horder⟩

end Catalog

section reordered

variable {c c' : Catalog} {span : Bytes} {ts ts' : List TypeExpr}

/-- Messages apart, which catalog a union is read in does not matter. -/
theorem firstCandidate_names (hn : c'.printName = c.printName) (r : Reading) (name : String)
    (failed : List (String × DecodeError)) (ts : List TypeExpr) :
    firstCandidate r c' name span failed ts = firstCandidate r c name span failed ts := by
  induction ts generalizing failed with
  | nil => rfl
  | cons t ts ih =>
    rw [firstCandidate, firstCandidate, hn]
    simp only [ih]

theorem readKept_names (hn : c'.printName = c.printName) (s : Shape) (r : Reading) :
    s.readKept r c' = s.readKept r c := by
  have hkind : s.readKind r c' = s.readKind r c := by
    simp only [Shape.readKind, Shape.readUnion, firstCandidate_names hn]
  have hitem : s.readItem r c' = s.readItem r c := by
    rw [Shape.readItem, Shape.readItem, hkind]
  rw [Shape.readKept, Shape.readKept, hitem]

theorem takeSlots_names (hn : c'.printName = c.printName) (name : String) (takes : List Take)
    (slots : List (Option Value)) :
    c'.takeSlots name takes slots = c.takeSlots name takes slots := by
  induction takes generalizing slots with
  | nil => rfl
  | cons t ts ih =>
    cases slots with
    | nil => rw [Catalog.takeSlots, Catalog.takeSlots, hn]
    | cons slot slots =>
      cases slot with
      | none => rw [Catalog.takeSlots, Catalog.takeSlots, ih]
      | some v => rw [Catalog.takeSlots, Catalog.takeSlots, ih, Catalog.ofType, Catalog.ofType, hn]

theorem contentOf_names (hn : c'.printName = c.printName) (s : Shape) (ts : List TypeExpr)
    (conversion : Conversion) (p : Parts) (asks : Asks) :
    c'.contentOf { s with candidates := ts } conversion p asks =
      c.contentOf s conversion p asks := by
  have hof : c'.ofType = c.ofType := by
    funext t v
    rw [Catalog.ofType, Catalog.ofType, hn]
  cases asks with
  | byShape => rfl
  | scalar => rfl
  | variant accepted => rfl
  | items item => simp only [Catalog.contentOf, Catalog.items, hof]
  | entries key value => simp only [Catalog.contentOf, Catalog.entries, hof]
  | fields takes =>
    simp only [Catalog.contentOf, Catalog.fields, takeSlots_names hn]
    rfl

/-- What is built of an item does not depend on the candidates of its shape. -/
theorem construct_reordered (h : c.Reordered c' t) (u : TypeExpr) (s : Shape) (ts : List TypeExpr)
    (p : Parts) : c'.construct u { s with candidates := ts } p = c.construct u s p := by
  obtain ⟨hnames, hkeys, hconversion, _⟩ := h
  cases u with
  | named name =>
    rw [Catalog.construct, Catalog.construct, hconversion name, Catalog.constructDeclared,
      Catalog.constructDeclared, contentOf_names hnames, hnames]
    rfl
  | _ =>
    obtain ⟨d, names, keys⟩ := c
    obtain ⟨d', names', keys'⟩ := c'
    dsimp only at hnames hkeys
    subst hnames hkeys
    rfl

/-- Where no other candidate accepts an item, the one that does is taken, wherever it stands. -/
theorem firstCandidate_only {r : Reading} {catalog : Catalog} {name : String} {t : TypeExpr}
    {v : Value} (ht : t ∈ ts) (hv : ((r.part t).whole span).result = .ok v)
    (hother : ∀ t' ∈ ts, t' ≠ t → Mismatch ((r.part t').whole span).result) :
    (firstCandidate r catalog name span [] ts).result = .ok v := by
  refine firstCandidate_ok_iff.mpr (wins_of_first ht (fun t' ht' => ?_) hv)
  have hne : t' ≠ t := by simpa using List.mem_takeWhile_imp ht'
  exact hother t' ((List.takeWhile_prefix _).subset ht') hne

/-- Where no candidate accepts an item, the union is refused. -/
theorem firstCandidate_none {r : Reading} (catalog : Catalog) (name : String)
    (h : ∀ t ∈ ts, Mismatch ((r.part t).whole span).result) :
    ∃ failures, (firstCandidate r catalog name span [] ts).result =
      .error (.noMatchingCandidate name failures) := by
  obtain ⟨failures, _, hrun⟩ := firstCandidate_append catalog name [] [] h
  rw [List.append_nil] at hrun
  exact ⟨_, hrun⟩

/-- **Candidates of which at most one accepts an item answer the same in any order.** -/
theorem firstCandidate_perm {r r' : Reading} (hr : r.Alike NoConfig s r') (hsound : r.Sound)
    (hspan : IsItem span) (hperm : ts.Perm s.candidates)
    (halone : ∀ t ∈ s.candidates, ∀ t' ∈ s.candidates, t ≠ t' → ∀ v v',
      (r.part t).Reads span v → ¬ (r.part t').Reads span v') (name : String) :
    CborSchema.Alike NoConfig (firstCandidate r c name span [] s.candidates).result
      (firstCandidate r' c' name span [] ts).result := by
  have htrial : ∀ t ∈ s.candidates, CborSchema.Alike NoConfig ((r.part t).whole span).result
      ((r'.part t).whole span).result := fun t ht =>
    whole_alike hr hsound (Shape.candidate_mem ht) hspan
  have hmismatch : ∀ t ∈ s.candidates, (∀ v, ((r.part t).whole span).result ≠ .ok v) →
      Mismatch ((r.part t).whole span).result ∧ Mismatch ((r'.part t).whole span).result := by
    intro t ht hno
    have halike := htrial t ht
    generalize ((r.part t).whole span).result = x at halike hno ⊢
    generalize ((r'.part t).whole span).result = y at halike ⊢
    cases halike with
    | ok v => exact absurd rfl (hno v)
    | error h => exact ⟨⟨_, rfl, h.1⟩, ⟨_, rfl, h.2⟩⟩
  by_cases hsome : ∃ t ∈ s.candidates, ∃ v, ((r.part t).whole span).result = .ok v
  · obtain ⟨t, ht, v, hv⟩ := hsome
    have hv' : ((r'.part t).whole span).result = .ok v := by
      have halike := htrial t ht
      rw [hv] at halike
      generalize ((r'.part t).whole span).result = y at halike ⊢
      cases halike with
      | ok => rfl
    have hother : ∀ t' ∈ s.candidates, t' ≠ t → Mismatch ((r.part t').whole span).result ∧
        Mismatch ((r'.part t').whole span).result := by
      intro t' ht' hne
      refine hmismatch t' ht' fun v' hv' => ?_
      exact halone t ht t' ht' (Ne.symm hne) v v' ((hsound t).whole hv).1 ((hsound t').whole hv').1
    rw [firstCandidate_only ht hv fun t' ht' hne => (hother t' ht' hne).1,
      firstCandidate_only (hperm.mem_iff.mpr ht) hv' fun t' ht' hne =>
        (hother t' (hperm.mem_iff.mp ht') hne).2]
    exact .ok v
  · have hnone : ∀ t ∈ s.candidates, Mismatch ((r.part t).whole span).result ∧
        Mismatch ((r'.part t).whole span).result :=
      fun t ht => hmismatch t ht fun v hv => hsome ⟨t, ht, v, hv⟩
    obtain ⟨failures, hrun⟩ := firstCandidate_none c name fun t ht =>
      (hnone t ht).1
    obtain ⟨failures', hrun'⟩ := firstCandidate_none c' name fun t ht =>
      (hnone t (hperm.mem_iff.mp ht)).2
    rw [hrun, hrun']
    exact .error ⟨fun g => by simp, fun g => by simp⟩

/-- A union whose candidates are told apart is read alike in any order of its candidates. -/
theorem readKept_perm {o : DecodeOptions} {depth : Nat} {r' : Reading}
    (hs : s.check t = .ok ()) (hk : s.kind = .union)
    (hr : (c.codec.reading o depth).Alike NoConfig s r') (hperm : ts.Perm s.candidates)
    (hpair : s.candidates.Pairwise c.Discriminated) :
    Decoder.Alike NoConfig (s.readKept (c.codec.reading o depth) c)
      ({ s with candidates := ts }.readKept r' c') := by
  obtain ⟨htag, hraw, _, _⟩ := check_union hs hk
  have hsound := c.codec.sound o depth
  have hunion : ({ s with candidates := ts } : Shape).kind = .union := hk
  rw [readKept_union hk htag hraw, readKept_union hunion htag hraw, ← hr.depth]
  refine Alike.bind_yields (Alike.scan noConfig_relation _) (Yields.scan (Scan.item_yields _)) ?_
  rintro span u ⟨rfl, hi⟩ rest
  have halone : ∀ t ∈ s.candidates, ∀ t' ∈ s.candidates, t ≠ t' → ∀ v v',
      ((c.codec.reading o depth).part t).Reads span v →
        ¬ ((c.codec.reading o depth).part t').Reads span v' := by
    intro t ht t' ht' hne v v' hv hv'
    have hapart := hpair.forall ht ht' hne
    exact hapart.disjoint hv hv'
  have halike : CborSchema.Alike NoConfig
      (firstCandidate (c.codec.reading o depth) c s.name span [] s.candidates).result
      (firstCandidate r' c' s.name span [] ts).result :=
    firstCandidate_perm hr hsound hi.isItem hperm halone s.name
  show CborSchema.Alike NoConfig (firstCandidate _ c s.name span [] s.candidates >>= _).result
    (firstCandidate r' c' s.name span [] ts >>= _).result
  rw [Outcome.result_bind, Outcome.result_bind]
  generalize
    (firstCandidate (c.codec.reading o depth) c s.name span [] s.candidates).result = x at halike ⊢
  generalize (firstCandidate r' c' s.name span [] ts).result = y at halike ⊢
  cases halike with
  | ok v => exact .ok _
  | error h => exact .error h

/-- **The same type is read alike whatever the order of the candidates**, by induction on the
    nesting that is left. -/
theorem read_reordered (h : c.Reordered c' t) (o : DecodeOptions) (depth : Nat) {u : TypeExpr}
    (hu : c.Reaches t u) :
    Decoder.Alike NoConfig (c.codec.read o depth u) (c'.codec.read o depth u) := by
  induction depth generalizing u with
  | zero =>
    intro bytes
    obtain ⟨s, ts, hs, hs', _⟩ := h.shapes u hu
    have hshape : (c.codec.shape u bytes).result = .ok (s, bytes) := Codec.shape_reads hs bytes
    have hshape' : (c'.codec.shape u bytes).result = .ok (_, bytes) := Codec.shape_reads hs' bytes
    rw [Codec.read, Codec.read, bind_of_ok hshape, bind_of_ok hshape']
    exact .error ⟨fun g => by simp, fun g => by simp⟩
  | succ depth ih =>
    intro bytes
    obtain ⟨s, ts, hs, hs', hperm, horder⟩ := h.shapes u hu
    have hr : (c.codec.reading o depth).Alike NoConfig s (c'.codec.reading o depth) :=
      ⟨rfl, rfl, rfl, fun t' ht' => ih (.part hu hs ht')⟩
    have hsame : ts = s.candidates → Decoder.Alike NoConfig (s.readKept (c.codec.reading o depth) c)
        ({ s with candidates := ts }.readKept (c'.codec.reading o depth) c') := by
      rintro rfl
      rw [readKept_names h.names]
      exact readKept_alike noConfig_relation hr (c.codec.sound o depth) c
    have hkept : Decoder.Alike NoConfig (s.readKept (c.codec.reading o depth) c)
        ({ s with candidates := ts }.readKept (c'.codec.reading o depth) c') := by
      by_cases hk : s.kind = .union
      · rcases horder with heq | hpair
        · exact hsame heq
        · exact readKept_perm (resolve_check hs).1 hk hr hperm hpair
      · have hnil := (check_settled (resolve_check hs).1).candidates hk
        rw [hnil] at hperm
        exact hsame (hperm.eq_nil.trans hnil.symm)
    rw [Codec.read_of_resolves hs, Codec.read_of_resolves hs']
    refine (hkept.bind fun parts => ?_) bytes
    show Decoder.Alike NoConfig (Decoder.ofExcept (c.construct u s parts))
      (Decoder.ofExcept (c'.construct u { s with candidates := ts } parts))
    rw [construct_reordered h]
    exact Alike.ofExcept noConfig_relation (construct_plain c parts u s)

end reordered

/-- Two types that are told apart accept no input in common: the item in front is one and the
    same. -/
theorem Catalog.Discriminated.decode_ne {c : Catalog} {t t' : TypeExpr} (h : c.Discriminated t t')
    {b : Bytes} {o o' : DecodeOptions} {v v' : Value} (hv : (c.codec.decode t b o).result = .ok v) :
    (c.codec.decode t' b o').result ≠ .ok v' := by
  intro hv'
  obtain ⟨used, rest, rfl, _, hread⟩ := Codec.decode_eq_ok.mp hv
  obtain ⟨used', rest', hbytes, _, hread'⟩ := Codec.decode_eq_ok.mp hv'
  have hpart := ((c.codec.read_partAt o o.maxDepth t).whole hread.whole).2
  have hpart' := ((c.codec.read_partAt o' o'.maxDepth t').whole hread'.whole).2
  obtain ⟨rfl, _⟩ := hpart.item.cancel hpart'.item hbytes
  exact h.disjoint hread hread'

/-- **Candidates that are told apart may stand in any order.** No input is accepted as two types
    that are told apart, whatever heads, framing, chunks, form of the index, extra items or order of
    the keys it has, and whatever the options. And where a catalog differs below a type from another
    in the order of the candidates of such unions alone, a run answers with a value in the one
    exactly if it answers with this value in the other. -/
theorem Catalog.discriminated_candidates_commute (c : Catalog) :
    (∀ t t', c.Discriminated t t' → ∀ b o o' v v', (c.codec.decode t b o).result = .ok v →
      (c.codec.decode t' b o').result ≠ .ok v') ∧
    ∀ c' t, c.Reordered c' t → ∀ b o v,
      (c.codec.decode t b o).result = .ok v ↔ (c'.codec.decode t b o).result = .ok v := by
  refine ⟨fun t t' h b o o' v v' hv => h.decode_ne hv, fun c' t h b o v => ?_⟩
  have halike := read_reordered h o o.maxDepth .refl b
  rw [Codec.decode_finish, Codec.decode_finish]
  generalize (c.codec.read o o.maxDepth t b).result = x at halike ⊢
  generalize (c'.codec.read o o.maxDepth t b).result = y at halike ⊢
  cases halike with
  | ok v => exact Iff.rfl
  | error h =>
    constructor
    · intro h
      cases h
    · intro h
      cases h

/-- A union of two lists that start with a number each, asked for in either order. -/
theorem Catalog.numbered_lists_commute :
    let list (number : Int64) : Declaration := {
      schema := (Schema.list.withLiteral (.int 0) (.int number)).withValue
        (.int 1) .uint64 .required }
    let union (first second : String) : Declaration := {
      schema := (Schema.union.withCandidate (.named first)).withCandidate (.named second) }
    let catalog (first second : String) : Catalog := {
      declared := fun name => if name = "a" then list 0 else if name = "b" then list 1
        else union first second
      printName := fun _ => "list" }
    let v : Value := .node (.named "b") (.fields [some (.ofScalar .uint64 (.uint 5))]) {}
    let w : Value := .node (.named "u") (.variant v) {}
    let b : Bytes := [0x82, 0x01, 0x05]
    ((catalog "a" "b").codec.decode (.named "u") b).result = .ok w ∧
      ((catalog "b" "a").codec.decode (.named "u") b).result = .ok w ∧
      ∀ v', ((catalog "a" "b").codec.decode (.named "a") b).result ≠ .ok v' := by
  intro list union catalog v w b
  have hapart : (catalog "a" "b").Discriminated (.named "a") (.named "b") :=
    ⟨_, _, rfl, rfl, .position (i := 0) rfl rfl rfl rfl rfl rfl rfl rfl
      (show Literal.int 0 ≠ .int 1 by decide)⟩
  have hreordered : (catalog "a" "b").Reordered (catalog "b" "a") (.named "u") := by
    refine .of_closed [.named "u", .named "a", .named "b", .uint64] List.mem_cons_self rfl rfl
      (fun name => ?_) ?_
    · show Declaration.conversion (if _ then _ else if _ then _ else _) =
        Declaration.conversion (if _ then _ else if _ then _ else _)
      split_ifs <;> rfl
    · simp only [List.forall_mem_cons]
      refine ⟨⟨_, [.named "b", .named "a"], rfl, rfl, by decide, by decide, .inr ?_⟩,
        ⟨_, [], rfl, rfl, by decide, .nil, .inl rfl⟩, ⟨_, [], rfl, rfl, by decide, .nil, .inl rfl⟩,
        ⟨_, [], rfl, rfl, by decide, .nil, .inl rfl⟩, by simp⟩
      exact List.pairwise_pair.mpr hapart
  have hread : ((catalog "a" "b").codec.decode (.named "b") b).result = .ok v := by cbv
  have hunion : ((catalog "a" "b").codec.decode (.named "u") b).result = .ok w := by cbv
  obtain ⟨hdisjoint, hcommute⟩ := (catalog "a" "b").discriminated_candidates_commute
  refine ⟨hunion, (hcommute _ _ hreordered _ _ _).mp hunion, fun v' hv' => ?_⟩
  exact hdisjoint _ _ hapart _ _ _ _ _ hv' hread

end CborSchema
