import CborSchema.Proofs.Decode.Rests
import CborSchema.Proofs.Decode.Unique

/-!
# The items of a collection one by one

The elements of an array and the entries of a map as lists of their bytes.

* `InRow.exists_list`, `InRow.exists_pairs` -- items in a row as a list, `flatten_items_inj`: which
  there is only one of;
* `Gathers m xs u` -- the bytes `u` are an array or a map of the items `xs`; `Opens.gathers`,
  `Opens.inner_eq` for a collection that a shape opened;
* `Laid.part_at`, `Laid.item_past` -- what a reader of fields in order did with an element, by its
  number;
* `Row.entry_read`, `keyedSteps_entry` -- what a reader of a map did with an entry;
* `Row.mono_items`, `Laid.reread`, `Row.entries_mono`, `keyedSteps_mono` -- other readers that do
  the same with each of them.
-/

namespace CborSchema

open Decoder

variable {s : Shape} {r r' : Reading}

/-! ## 1. Items one by one -/

theorem InRow.exists_list {P : Bytes → Prop} {k : Nat} {bytes : Bytes} (h : InRow P k bytes) :
    ∃ xs : List Bytes, xs.length = k ∧ bytes = xs.flatten ∧ ∀ x ∈ xs, P x := by
  induction h with
  | nil => exact ⟨[], rfl, rfl, by simp⟩
  | cons hx _ ih =>
    obtain ⟨xs, rfl, rfl, hxs⟩ := ih
    exact ⟨_ :: xs, rfl, rfl, List.forall_mem_cons.mpr ⟨hx, hxs⟩⟩

/-- The first of items in a row is the item in front. -/
theorem cons_of_flatten {x u : Bytes} {xs : List Bytes} (hx : IsItem x) (hxs : ∀ x ∈ xs, IsItem x)
    (h : x ++ u = xs.flatten) : ∃ ys, xs = x :: ys ∧ u = ys.flatten := by
  cases xs with
  | nil => exact absurd (List.append_eq_nil_iff.mp h).1 hx.ne_nil
  | cons y ys =>
    obtain ⟨rfl, rfl⟩ := hx.cancel (hxs y List.mem_cons_self) h
    exact ⟨ys, rfl, rfl⟩

/-- **Items in a row are known by their bytes.** -/
theorem flatten_items_inj {xs ys : List Bytes} (hxs : ∀ x ∈ xs, IsItem x) (hys : ∀ y ∈ ys, IsItem y)
    (h : xs.flatten = ys.flatten) : xs = ys := by
  induction xs generalizing ys with
  | nil =>
    cases ys with
    | nil => rfl
    | cons y ys =>
      have hnil := (List.append_eq_nil_iff.mp h.symm).1
      exact absurd hnil (hys y List.mem_cons_self).ne_nil
  | cons x xs ih =>
    obtain ⟨hx, hxs⟩ := List.forall_mem_cons.mp hxs
    obtain ⟨ys, rfl, hrest⟩ := cons_of_flatten hx hys h
    rw [ih hxs (List.forall_mem_cons.mp hys).2 hrest]

theorem eq_nil_of_flatten {xs : List Bytes} (hxs : ∀ x ∈ xs, IsItem x) (h : xs.flatten = []) :
    xs = [] := flatten_items_inj hxs (List.forall_mem_nil _) h

/-- Values in a row each have an item of their own. -/
theorem Row.mem_of_flatten {α : Type} {P : α → Bytes → Prop} (hP : ∀ a x, P a x → IsItem x)
    {as : List α} {xs : List Bytes} (h : Row P as xs.flatten) (hxs : ∀ x ∈ xs, IsItem x) {x : Bytes}
    (hx : x ∈ xs) : ∃ a ∈ as, P a x := by
  generalize hu : xs.flatten = u at h
  induction h generalizing xs with
  | nil =>
    rw [eq_nil_of_flatten hxs hu] at hx
    cases hx
  | cons hy _ ih =>
    obtain ⟨ys, rfl, rfl⟩ := cons_of_flatten (hP _ _ hy) hxs hu.symm
    rcases List.mem_cons.mp hx with rfl | hx
    · exact ⟨_, List.mem_cons_self, hy⟩
    · obtain ⟨a, ha, hP⟩ := ih (List.forall_mem_cons.mp hxs).2 hx rfl
      exact ⟨a, List.mem_cons_of_mem _ ha, hP⟩

/-- What holds of the items in a row one by one. -/
theorem Row.mono_items {α : Type} {P Q : α → Bytes → Prop} (hP : ∀ a x, P a x → IsItem x)
    {as : List α} {xs : List Bytes} (h : Row P as xs.flatten) (hxs : ∀ x ∈ xs, IsItem x)
    (hPQ : ∀ a, ∀ x ∈ xs, P a x → Q a x) : Row Q as xs.flatten := by
  generalize hu : xs.flatten = u at h
  induction h generalizing xs with
  | nil => exact .nil
  | cons hy _ ih =>
    obtain ⟨ys, rfl, rfl⟩ := cons_of_flatten (hP _ _ hy) hxs hu.symm
    refine .cons (hPQ _ _ List.mem_cons_self hy) ?_
    exact ih (List.forall_mem_cons.mp hxs).2 (fun a x hx => hPQ a x (List.mem_cons_of_mem _ hx)) rfl

/-! ## 2. Collections of items -/

/-- The items of entries, keys and values in turn. -/
def pairItems (es : List (Bytes × Bytes)) : List Bytes := es.flatMap fun e => [e.1, e.2]

@[simp] theorem pairItems_cons (e : Bytes × Bytes) (es : List (Bytes × Bytes)) :
    pairItems (e :: es) = e.1 :: e.2 :: pairItems es := rfl

@[simp] theorem pairItems_append (es es' : List (Bytes × Bytes)) :
    pairItems (es ++ es') = pairItems es ++ pairItems es' := List.flatMap_append

theorem mem_pairItems {e : Bytes × Bytes} {es : List (Bytes × Bytes)} (h : e ∈ es) :
    e.1 ∈ pairItems es := List.mem_flatMap.mpr ⟨e, h, List.mem_cons_self⟩

theorem pairItems_inj {es es' : List (Bytes × Bytes)} (h : pairItems es = pairItems es') :
    es = es' := by
  induction es generalizing es' with
  | nil =>
    cases es' with
    | nil => rfl
    | cons e es' => cases h
  | cons e es ih =>
    cases es' with
    | nil => cases h
    | cons e' es' =>
      simp only [pairItems_cons, List.cons.injEq] at h
      rw [ih h.2.2, Prod.ext h.1 h.2.1]

@[simp] theorem length_pairItems (es : List (Bytes × Bytes)) :
    (pairItems es).length = es.length * 2 := by
  induction es with
  | nil => rfl
  | cons e es ih => simp only [pairItems_cons, List.length_cons, ih, Nat.succ_mul]

/-- Items in pairs are entries. -/
theorem InRow.exists_pairs {P : Bytes → Prop} {n : Nat} {bytes : Bytes}
    (h : InRow P (n * 2) bytes) :
    ∃ es : List (Bytes × Bytes), es.length = n ∧ bytes = (pairItems es).flatten ∧
      ∀ y ∈ pairItems es, P y := by
  induction n generalizing bytes with
  | zero => exact ⟨[], rfl, h.eq_nil, List.forall_mem_nil P⟩
  | succ n ih =>
    rw [Nat.succ_mul, Nat.add_comm] at h
    obtain ⟨x, u, rfl, hx, hu⟩ := h.split
    obtain ⟨es, rfl, rfl, hes⟩ := ih hu
    cases hx with
    | @cons key _ _ hk hrest =>
      cases hrest with
      | @cons value _ _ hv hnil =>
        obtain rfl := hnil.eq_nil
        refine ⟨(key, value) :: es, rfl, by simp, ?_⟩
        rw [pairItems_cons]
        exact List.forall_mem_cons.mpr ⟨hk, List.forall_mem_cons.mpr ⟨hv, hes⟩⟩

/-- Bytes that are a head and the items it announces, one by one. -/
inductive Gathers (m : Major) (xs : List Bytes) : Bytes → Prop where
  | mk {h : Head} {w k : Nat} {front body : Bytes} (hh : h.Spelled front) (hm : h.major = m)
      (hw : m.perElement = some w) (hk : xs.length = k * w) (hb : h.pending.Body k xs.flatten body)
      (hx : ∀ x ∈ xs, IsItem x) : Gathers m xs (front ++ body)

theorem Gathers.starts {m : Major} {xs : List Bytes} {u : Bytes} (h : Gathers m xs u) :
    ∃ head, StartsHead head u ∧ head.major = m := by
  cases h with
  | mk hh hm _ _ _ _ => exact ⟨_, hh.starts _, hm⟩

/-- **The items of a collection that was opened**, as they stand in its bytes. -/
theorem Shape.Opens.gathers {m : Major} {e : Pending} {w n : Nat} {front inner body : Bytes}
    (ho : s.Opens r m e front) (hw : m.perElement = some w) (hb : e.Body n inner body)
    {xs : List Bytes} (hk : xs.length = n * w) (hi : inner = xs.flatten) (hx : ∀ x ∈ xs, IsItem x) :
    Gathers m xs (front ++ body) := by
  obtain ⟨h, hh, hm, rfl, _, _⟩ := Shape.opens_iff.mp ho
  subst hi
  exact .mk hh hm hw hk hb hx

/-- What a collection was opened with holds its items. -/
theorem Shape.Opens.inner_eq {m m' : Major} {e : Pending} {n : Nat} {front inner body : Bytes}
    {xs : List Bytes} (ho : s.Opens r m e front) (hb : e.Body n inner body)
    (h : Gathers m' xs (front ++ body)) : m = m' ∧ inner = xs.flatten ∧ ∀ x ∈ xs, IsItem x := by
  obtain ⟨head, hh, hm, rfl, _, _⟩ := Shape.opens_iff.mp ho
  generalize hu : front ++ body = v at h
  cases h with
  | mk hh' hm' _ _ hb' hx =>
    obtain ⟨rfl, rfl, rfl⟩ := hh.cancel hh' hu
    exact ⟨hm.symm.trans hm', hb.inner_unique hb', hx⟩

/-! ## 3. Elements of fields -/

/-- The element in the place of a field that holds a value of a type, unless it stands for no
    value. -/
def FieldElement (fields : List Field) (xs : List Bytes) (type : TypeExpr) (x : Bytes) : Prop :=
  ∃ (j : Nat) (f : Field) (presence : Presence), fields[j]? = some f ∧ xs[j]? = some x ∧
    f.body = .value type presence ∧ (presence = .nullable → x ≠ [nullByte])

theorem FieldElement.cons {fields : List Field} {xs : List Bytes} {type : TypeExpr} {x : Bytes}
    (h : FieldElement fields xs type x) (f : Field) (y : Bytes) :
    FieldElement (f :: fields) (y :: xs) type x := by
  obtain ⟨j, f', presence, hf, hx, hb⟩ := h
  exact ⟨j + 1, f', presence, hf, hx, hb⟩

/-- The element of a field that holds a value is read as a part. -/
theorem Shape.Laid.part_at {fields : List Field} {slots : List (Option Value)} {n : Nat}
    {xs : List Bytes} (h : s.Laid r fields slots n xs.flatten) (hxs : ∀ x ∈ xs, IsItem x)
    {type : TypeExpr} {x : Bytes} (hx : FieldElement fields xs type x) :
    ∃ z ∈ slots.filterMap id, r.PartAt type z x := by
  obtain ⟨j, f, presence, hf, hx, hb, hn⟩ := hx
  generalize hu : xs.flatten = u at h
  induction h generalizing xs j with
  | past => cases hf
  | literal hf' hl _ ih =>
    obtain ⟨ys, rfl, rfl⟩ := cons_of_flatten hl.isItem hxs hu.symm
    cases j with
    | zero =>
      cases hf
      cases hf'.symm.trans hb
    | succ j => exact ih (List.forall_mem_cons.mp hxs).2 j hf hx rfl
  | value hf' hslot _ ih =>
    obtain ⟨ys, rfl, rfl⟩ := cons_of_flatten hslot.isItem hxs hu.symm
    cases j with
    | zero =>
      cases hf
      cases hx
      obtain ⟨rfl, rfl⟩ := FieldBody.value.inj (hf'.symm.trans hb)
      cases hslot with
      | null hp => exact absurd rfl (hn hp)
      | value hv _ => exact ⟨_, by simp, hv⟩
    | succ j =>
      obtain ⟨z, hz, hat⟩ := ih (List.forall_mem_cons.mp hxs).2 j hf hx rfl
      exact ⟨z, ((List.sublist_cons_self _ _).filterMap id).subset hz, hat⟩
  | absent _ _ _ =>
    obtain rfl := eq_nil_of_flatten hxs hu
    cases hx

/-- An element past the last field is passed over. -/
theorem Shape.Laid.item_past {fields : List Field} {slots : List (Option Value)} {n : Nat}
    {xs : List Bytes} (h : s.Laid r fields slots n xs.flatten) (hxs : ∀ x ∈ xs, IsItem x) {j : Nat}
    {x : Bytes} (hj : fields.length ≤ j) (hx : xs[j]? = some x) : Item (r.depth + 1) x := by
  generalize hu : xs.flatten = u at h
  induction h generalizing xs j with
  | past hrow _ =>
    obtain ⟨ys, _, rfl, hys⟩ := hrow.exists_list
    obtain rfl := flatten_items_inj hxs (fun y hy => (hys y hy).isItem) hu
    exact hys x (List.mem_of_getElem? hx)
  | literal _ hl _ ih =>
    obtain ⟨ys, rfl, rfl⟩ := cons_of_flatten hl.isItem hxs hu.symm
    obtain ⟨j, rfl⟩ :=
      Nat.exists_eq_add_one_of_ne_zero (Nat.ne_of_gt (Nat.lt_of_lt_of_le (by simp) hj))
    exact ih (List.forall_mem_cons.mp hxs).2 (by simpa using hj) hx rfl
  | value _ hslot _ ih =>
    obtain ⟨ys, rfl, rfl⟩ := cons_of_flatten hslot.isItem hxs hu.symm
    obtain ⟨j, rfl⟩ :=
      Nat.exists_eq_add_one_of_ne_zero (Nat.ne_of_gt (Nat.lt_of_lt_of_le (by simp) hj))
    exact ih (List.forall_mem_cons.mp hxs).2 (by simpa using hj) hx rfl
  | absent _ _ _ =>
    obtain rfl := eq_nil_of_flatten hxs hu
    cases hx

/-- Elements over fields are read the same by what reads the same parts; none may be passed over. -/
theorem Shape.Laid.reread {fields : List Field} {slots : List (Option Value)} {n : Nat}
    {xs : List Bytes} (h : s.Laid r fields slots n xs.flatten) (hxs : ∀ x ∈ xs, IsItem x)
    (he : s.extensible = false) (hlen : r.options.LengthsWithin r'.options)
    (hparts : ∀ type x z, FieldElement fields xs type x → r.PartAt type z x → r'.PartAt type z x) :
    s.Laid r' fields slots n xs.flatten := by
  generalize hu : xs.flatten = u at h ⊢
  induction h generalizing xs with
  | past hrow hk =>
    obtain rfl : _ = 0 := hk.resolve_right (by simp [he])
    cases hrow
    exact .past .nil (.inl rfl)
  | literal hf hlit _ ih =>
    obtain ⟨ys, rfl, rfl⟩ := cons_of_flatten hlit.isItem hxs hu.symm
    refine .literal hf (hlit.mono hlen)
      (ih (List.forall_mem_cons.mp hxs).2 (fun type x z hx => ?_) rfl)
    exact hparts type x z (hx.cons _ _)
  | value hf hslot _ ih =>
    obtain ⟨ys, rfl, rfl⟩ := cons_of_flatten hslot.isItem hxs hu.symm
    refine .value hf ?_ (ih (List.forall_mem_cons.mp hxs).2 (fun type x z hx => ?_) rfl)
    · cases hslot with
      | null hp => exact .null hp
      | value hv hn =>
        refine .value (hparts _ _ _ ⟨0, _, _, rfl, rfl, hf, fun hp hnull => ?_⟩ hv) hn
        exact hn hp (by rw [hnull]; rfl)
    · exact hparts type x z (hx.cons _ _)
  | absent hf _ ih =>
    obtain rfl := eq_nil_of_flatten hxs hu
    refine .absent hf (ih hxs (fun type x z hx => ?_) rfl)
    obtain ⟨_, _, _, _, hx, _⟩ := hx
    cases hx

/-! ## 4. Entries -/

/-- The first of entries in a row is the entry in front. -/
theorem cons_of_pairItems {x u : Bytes} {es : List (Bytes × Bytes)} (hx : InRow IsItem 2 x)
    (hes : ∀ y ∈ pairItems es, IsItem y) (hu : x ++ u = (pairItems es).flatten) :
    ∃ e es', es = e :: es' ∧ x = e.1 ++ e.2 ∧ u = (pairItems es').flatten := by
  cases es with
  | nil => exact absurd (List.append_eq_nil_iff.mp hu).1 hx.startsItem.ne_nil
  | cons e es =>
    simp only [pairItems_cons, List.forall_mem_cons] at hes
    have hrow : InRow IsItem 2 (e.1 ++ e.2) := (InRow.single hes.1).append (.single hes.2.1)
    rw [pairItems_cons, List.flatten_cons, List.flatten_cons, ← List.append_assoc] at hu
    obtain ⟨rfl, rfl⟩ := hx.cancel hrow hu
    exact ⟨e, es, rfl, rfl, rfl⟩

section entries

variable {key value : TypeExpr}

/-- **The key and the value of each entry were read.** -/
theorem Row.entry_read {es' : List (Bytes × Value × Value)} {es : List (Bytes × Bytes)}
    (h : Row (EntryAt r key value) es' (pairItems es).flatten) (hes : ∀ y ∈ pairItems es, IsItem y)
    {e : Bytes × Bytes} (he : e ∈ es) :
    ∃ e' ∈ es', r.PartAt key e'.2.1 e.1 ∧ r.PartAt value e'.2.2 e.2 := by
  generalize hu : (pairItems es).flatten = u at h
  induction h generalizing es with
  | nil =>
    obtain rfl : es = [] := pairItems_inj (eq_nil_of_flatten hes hu)
    cases he
  | cons hx _ ih =>
    obtain ⟨d, es, rfl, hd, rfl⟩ := cons_of_pairItems hx.inRow hes hu.symm
    obtain ⟨v, rfl, hk, hv⟩ := hx
    simp only [pairItems_cons, List.forall_mem_cons] at hes
    rcases List.mem_cons.mp he with rfl | he
    · obtain ⟨hkey, rfl⟩ := hk.item.cancel hes.1 hd
      exact ⟨_, List.mem_cons_self, hkey ▸ hk, hv⟩
    · obtain ⟨e', he', hat⟩ := ih hes.2.2 he rfl
      exact ⟨e', List.mem_cons_of_mem _ he', hat⟩

/-- Entries are read the same by what reads the same keys and values. -/
theorem Row.entries_mono {es' : List (Bytes × Value × Value)} {es : List (Bytes × Bytes)}
    (h : Row (EntryAt r key value) es' (pairItems es).flatten) (hes : ∀ y ∈ pairItems es, IsItem y)
    (hkey : ∀ e ∈ es, ∀ z, r.PartAt key z e.1 → r'.PartAt key z e.1)
    (hvalue : ∀ e ∈ es, ∀ z, r.PartAt value z e.2 → r'.PartAt value z e.2) :
    Row (EntryAt r' key value) es' (pairItems es).flatten := by
  generalize hu : (pairItems es).flatten = u at h ⊢
  induction h generalizing es with
  | nil => exact .nil
  | cons hx _ ih =>
    obtain ⟨d, es, rfl, hd, rfl⟩ := cons_of_pairItems hx.inRow hes hu.symm
    obtain ⟨v, rfl, hk, hv⟩ := hx
    simp only [pairItems_cons, List.forall_mem_cons] at hes
    obtain ⟨hfirst, rfl⟩ := hk.item.cancel hes.1 hd
    refine .cons ⟨d.2, rfl, ?_, hvalue d List.mem_cons_self _ hv⟩ ?_
    · rw [hfirst] at hk ⊢
      exact hkey d List.mem_cons_self _ hk
    · exact ih hes.2.2 (fun e he => hkey e (List.mem_cons_of_mem _ he))
        (fun e he => hvalue e (List.mem_cons_of_mem _ he)) rfl

end entries

section keyed

variable {fields : List Field}

/-- **There is a step for each entry**, and what it finds stays found. -/
theorem keyedSteps_entry {k : Nat} {found found' : Found} {es : List (Bytes × Bytes)}
    (h : Steps (KeyedStep s r fields) k found (pairItems es).flatten found')
    (hes : ∀ y ∈ pairItems es, IsItem y) {e : Bytes × Bytes} (he : e ∈ es) :
    ∃ t t', KeyedStep s r fields t (e.1 ++ e.2) t' ∧ ∀ w ∈ t', w ∈ found' := by
  have stays : ∀ {k : Nat} {t t' : Found} {u : Bytes}, Steps (KeyedStep s r fields) k t u t' →
      ∀ w ∈ t, w ∈ t' := by
    intro k t t' u hsteps
    induction hsteps with
    | nil => exact fun w hw => hw
    | cons hx _ ih =>
      intro w hw
      refine ih w ?_
      cases hx with
      | unknown => exact hw
      | literal => exact List.mem_cons_of_mem _ hw
      | value => exact List.mem_cons_of_mem _ hw
  generalize hu : (pairItems es).flatten = u at h
  induction h generalizing es with
  | nil =>
    obtain rfl : es = [] := pairItems_inj (eq_nil_of_flatten hes hu)
    cases he
  | cons hx hs ih =>
    obtain ⟨e', es, rfl, rfl, rfl⟩ := cons_of_pairItems hx.inRow hes hu.symm
    simp only [pairItems_cons, List.forall_mem_cons] at hes
    rcases List.mem_cons.mp he with rfl | he
    · exact ⟨_, _, hx, stays hs⟩
    · exact ih hes.2.2 he rfl

/-- Entries are read the same by what takes each of them in the same step. -/
theorem keyedSteps_mono {k : Nat} {found found' : Found} {es : List (Bytes × Bytes)}
    (h : Steps (KeyedStep s r fields) k found (pairItems es).flatten found')
    (hes : ∀ y ∈ pairItems es, IsItem y)
    (hstep : ∀ e ∈ es, ∀ t t', KeyedStep s r fields t (e.1 ++ e.2) t' →
      KeyedStep s r' fields t (e.1 ++ e.2) t') :
    Steps (KeyedStep s r' fields) k found (pairItems es).flatten found' := by
  generalize hu : (pairItems es).flatten = u at h ⊢
  induction h generalizing es with
  | nil => exact .nil
  | cons hx hs ih =>
    obtain ⟨e', es, rfl, rfl, rfl⟩ := cons_of_pairItems hx.inRow hes hu.symm
    simp only [pairItems_cons, List.forall_mem_cons] at hes
    refine .cons (hstep _ List.mem_cons_self _ _ hx) ?_
    exact ih hes.2.2 (fun e he => hstep e (List.mem_cons_of_mem _ he)) rfl

end keyed

end CborSchema
