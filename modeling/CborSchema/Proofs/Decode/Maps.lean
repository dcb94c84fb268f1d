import CborSchema.Decode.Map
import CborSchema.Proofs.Decode.Arrays
import Mathlib.Data.List.Nodup

/-!
# Maps on the wire

Which bytes hold a map of a shape.

* `EntryAt`, `EntryStep` -- an entry of a dynamic map; no two have keys of the same bytes;
* `KeyAt` -- what stands in the place of a field key;
* `KeyedStep` -- an entry of a map with fields: a field that was not there yet, or an entry that is
  passed over;
* `Shape.MapAt` -- a map of either layout; `readMap_reads`, `readMap_yields` -- this is what is
  read, and nothing else is;
* `MapAt.item`, `MapAt.cut` -- it is one item, and each part lies somewhere in it.
-/

namespace CborSchema

open Decoder

variable {s : Shape} {r : Reading}

/-! ## 1. Entries -/

/-- An entry, with the bytes of its key: the key, then the value. -/
def EntryAt (r : Reading) (key value : TypeExpr) (e : Bytes × Value × Value) (x : Bytes) : Prop :=
  ∃ u, x = e.1 ++ u ∧ r.PartAt key e.2.1 e.1 ∧ r.PartAt value e.2.2 u

/-- One step of the loop over entries: the bytes of the key are none of those seen. -/
def EntryStep (r : Reading) (key value : TypeExpr) (seen : List (Bytes × Value × Value)) (x : Bytes)
    (seen' : List (Bytes × Value × Value)) : Prop :=
  ∃ e, seen' = e :: seen ∧ EntryAt r key value e x ∧ e.1 ∉ seen.map Prod.fst

section entries

variable {key value : TypeExpr}

theorem EntryAt.inRow {e : Bytes × Value × Value} {x : Bytes} (h : EntryAt r key value e x) :
    InRow IsItem 2 x := by
  obtain ⟨u, rfl, hk, hv⟩ := h
  exact (InRow.single hk.item).append (InRow.single hv.item)

theorem InRow.startsItem {k : Nat} {x : Bytes} (h : InRow IsItem (k + 1) x) :
    Scan.StartsItem x := by
  cases h with
  | cons hx _ => exact hx.startsItem.append _

theorem entries_of_steps {k : Nat} {seen seen' : List (Bytes × Value × Value)} {inner : Bytes}
    (h : Steps (EntryStep r key value) k seen inner seen') (hseen : (seen.map Prod.fst).Nodup) :
    (seen'.map Prod.fst).Nodup ∧ ∃ es, seen' = es.reverse ++ seen ∧ es.length = k ∧
      Row (EntryAt r key value) es inner := by
  induction h with
  | nil => exact ⟨hseen, [], rfl, rfl, .nil⟩
  | cons hx _ ih =>
    obtain ⟨e, rfl, he, hnew⟩ := hx
    obtain ⟨hnodup, es, rfl, rfl, hes⟩ := ih (List.nodup_cons.mpr ⟨hnew, hseen⟩)
    exact ⟨hnodup, e :: es, by simp, rfl, .cons he hes⟩

theorem steps_of_entries {es : List (Bytes × Value × Value)} {inner : Bytes}
    (h : Row (EntryAt r key value) es inner) (seen : List (Bytes × Value × Value))
    (hnew : ((es.reverse ++ seen).map Prod.fst).Nodup) :
    Steps (EntryStep r key value) es.length seen inner (es.reverse ++ seen) := by
  induction h generalizing seen with
  | nil => exact .nil
  | cons hx _ ih =>
    rw [List.reverse_cons, List.append_assoc] at hnew ⊢
    refine .cons ⟨_, rfl, hx, ?_⟩ (ih _ hnew)
    rw [List.map_append] at hnew
    exact (List.nodup_cons.mp (List.nodup_append.mp hnew).2.1).1

theorem entryStep_startsItem (seen : List (Bytes × Value × Value)) (x : Bytes)
    (seen' : List (Bytes × Value × Value)) (h : EntryStep r key value seen x seen') :
    Scan.StartsItem x := by
  obtain ⟨e, _, he, _⟩ := h
  exact he.inRow.startsItem

theorem any_fst_eq {seen : List (Bytes × Value × Value)} {span : Bytes} :
    (seen.any fun e => e.1 == span) = true ↔ span ∈ seen.map Prod.fst := by
  simp only [List.any_eq_true, beq_iff_eq, List.mem_map]

theorem entryStep_reads {name : String} (seen : List (Bytes × Value × Value)) (x : Bytes)
    (seen' : List (Bytes × Value × Value)) (h : EntryStep r key value seen x seen') :
    (readEntry r name key value seen).Reads x seen' := by
  obtain ⟨⟨span, k, v⟩, rfl, ⟨u, rfl, hk, hv⟩, hnew⟩ := h
  refine hk.reads.spanned.bind ?_
  dsimp only
  rw [if_neg fun hany => hnew (any_fst_eq.mp hany)]
  exact Reads.bind_nil hv.reads (Reads.pure _)

theorem readEntry_yields (hr : r.Sound) (name : String) (key value : TypeExpr)
    (seen : List (Bytes × Value × Value)) :
    (readEntry r name key value seen).Yields fun seen' x => EntryStep r key value seen x seen' := by
  refine (hr.partAt key).spanned.bind fun p u hp => ?_
  obtain ⟨rfl, _, hk⟩ := hp
  dsimp only
  split
  · exact Yields.fail _
  · rename_i hnew
    refine (hr.partAt value).bind fun v w hv => Yields.pure ?_
    rw [List.append_nil]
    exact ⟨(p.2, p.1, v), rfl, ⟨w, rfl, hk, hv⟩, fun hmem => hnew (any_fst_eq.mpr hmem)⟩

theorem readEntries_reads {name : String} {e : Pending} {es : List (Bytes × Value × Value)}
    {inner u : Bytes} (hb : e.Body es.length inner u) (h : Row (EntryAt r key value) es inner)
    (hkeys : (es.map Prod.fst).Nodup) :
    (readEntries r name key value e).Reads u (es.map fun e => e.2) := by
  have hkeys' : ((es.reverse ++ []).map Prod.fst).Nodup := by
    rw [List.append_nil, List.map_reverse]
    exact List.nodup_reverse.mpr hkeys
  refine Reads.bind_nil (Pending.fold_reads entryStep_startsItem entryStep_reads hb
    (steps_of_entries h [] hkeys')) ?_
  simpa using Reads.pure (es.map fun e => e.2)

theorem readEntries_yields (hr : r.Sound) (name : String) (key value : TypeExpr) (e : Pending) :
    (readEntries r name key value e).Yields fun vs u => ∃ es inner, vs = es.map (fun e => e.2) ∧
      e.Body es.length inner u ∧ Row (EntryAt r key value) es inner ∧ (es.map Prod.fst).Nodup := by
  refine Yields.bind (Pending.fold_yields entryStep_startsItem entryStep_reads
    (readEntry_yields hr name key value) e []) fun rev u hu => ?_
  obtain ⟨k, inner, hb, hs⟩ := hu
  obtain ⟨hnodup, es, rfl, rfl, hes⟩ := entries_of_steps hs (by simp)
  rw [List.append_nil, List.map_reverse, List.nodup_reverse] at hnodup
  refine Yields.pure ⟨es, inner, by simp, by simpa using hb, hes, hnodup⟩

theorem EntryAt.cut {e : Bytes × Value × Value} {x : Bytes} (h : EntryAt r key value e x) :
    r.Cut [e.2.1, e.2.2] x := by
  obtain ⟨u, rfl, hk, hv⟩ := h
  exact hk.cut.append hv.cut

theorem Row.entries_inRow {es : List (Bytes × Value × Value)} {inner : Bytes}
    (h : Row (EntryAt r key value) es inner) : InRow IsItem (es.length * 2) inner :=
  (h.inRow fun _ _ hx => hx.inRow).flatten

end entries

/-! ## 2. Keys of fields -/

/-- What stands in the place of a field key. -/
inductive KeyAt (r : Reading) : KeyItem → Bytes → Prop where
  | unsigned {h : Head} {n : UInt64} {front : Bytes} (hh : h.Spelled front)
      (hm : h.major = .unsigned) (hn : h.arg = some n) :
      KeyAt r (if n ≤ maxSigned then .field (.int n.toInt64) else .other (toString n)) front
  | negative {h : Head} {n : UInt64} {front : Bytes} (hh : h.Spelled front)
      (hm : h.major = .negative) (hn : h.arg = some n) :
      KeyAt r (if n ≤ maxSigned then .field (.int (-1 - n.toInt64)) else .other s!"-1-{n}") front
  | text {h : Head} {front payload u : Bytes} {text : String} (hh : h.Spelled front)
      (hm : h.major = .text) (hp : h.Payload r.options.maxStringLength payload u)
      (ht : readText payload "map key" = .ok text) : KeyAt r (.field (.text text)) (front ++ u)
  | other {h : Head} {u : Bytes} (hh : StartsHead h u)
      (hm : h.major ≠ .unsigned ∧ h.major ≠ .negative ∧ h.major ≠ .text)
      (hi : Item (r.depth + 1) u) : KeyAt r (.other s!"<{h.major.name}>") u

theorem Head.Spelled.starts {h : Head} {front : Bytes} (hh : h.Spelled front) (u : Bytes) :
    StartsHead h (front ++ u) := ⟨front, u, rfl, hh⟩

theorem KeyAt.isItem {key : KeyItem} {u : Bytes} (h : KeyAt r key u) : IsItem u := by
  cases h with
  | unsigned hh hm hn => exact (ItemOf.plain hh (by simp [hn]) (.inl hm)).isItem
  | negative hh hm hn => exact (ItemOf.plain hh (by simp [hn]) (.inr (.inl hm))).isItem
  | text hh hm hp ht => exact (ItemOf.string hh (.inr hm) hp.largest).isItem
  | other hh hm hi => exact hi.isItem

theorem readKeyItem_reads {key : KeyItem} {u : Bytes} (h : KeyAt r key u) :
    (readKeyItem r).Reads u key := by
  cases h with
  | unsigned hh hm hn =>
    rename_i h n
    have hstart := hh.starts []
    rw [List.append_nil] at hstart
    refine Reads.peek hstart ?_
    simp only [hm, hn]
    exact Reads.bind_nil (Reads.scan (hh _)) (Reads.pure _)
  | negative hh hm hn =>
    rename_i h n
    have hstart := hh.starts []
    rw [List.append_nil] at hstart
    refine Reads.peek hstart ?_
    simp only [hm, hn]
    exact Reads.bind_nil (Reads.scan (hh _)) (Reads.pure _)
  | text hh hm hp ht =>
    refine Reads.peek (hh.starts _) ?_
    simp only [hm]
    refine (Reads.scan (hh _)).bind ?_
    refine Reads.bind_nil (Reads.scan (Scan.payload_reads hp _)) ?_
    exact Reads.bind_nil (Reads.ofExcept ht) (Reads.pure _)
  | other hh hm hi =>
    rename_i h
    refine Reads.peek hh ?_
    have hskip : ((liftM (Scan.skip r.depth) : Decoder Unit) >>= fun _ =>
        pure (KeyItem.other s!"<{h.major.name}>")).Reads u (.other s!"<{h.major.name}>") :=
      Reads.bind_nil (Reads.scan (Scan.skip_reads hi)) (Reads.pure _)
    obtain ⟨h1, h2, h3⟩ := hm
    split
    · contradiction
    · contradiction
    · contradiction
    · exact hskip

theorem readKeyItem_yields (r : Reading) : (readKeyItem r).Yields (KeyAt r) := by
  refine Yields.peek fun h => ?_
  split
  · rename_i n hm hn
    refine (Yields.scan (head_yields _)).bind fun h' front hh => Yields.pure ?_
    rw [List.append_nil]
    have hstart := hh.starts []
    rw [List.append_nil] at hstart
    refine ⟨⟨h', hstart⟩, fun hs => ?_⟩
    obtain rfl := hs.unique hstart
    exact .unsigned hh hm hn
  · rename_i n hm hn
    refine (Yields.scan (head_yields _)).bind fun h' front hh => Yields.pure ?_
    rw [List.append_nil]
    have hstart := hh.starts []
    rw [List.append_nil] at hstart
    refine ⟨⟨h', hstart⟩, fun hs => ?_⟩
    obtain rfl := hs.unique hstart
    exact .negative hh hm hn
  · rename_i hm
    refine (Yields.scan (head_yields _)).bind fun h' front hh => ?_
    refine (Yields.scan (Scan.payload_yields h' _ _)).bind fun payload u hp => ?_
    refine Yields.after fun text ht => Yields.pure ?_
    rw [List.append_nil]
    refine ⟨⟨h', hh.starts u⟩, fun hs => ?_⟩
    obtain rfl := hs.unique (hh.starts u)
    exact .text hh hm hp ht
  · rename_i h3 h1 h2
    refine (Yields.scan (Scan.skip_yields r.depth)).bind fun _ u hi => Yields.pure ?_
    rw [List.append_nil]
    refine ⟨hi.isItem.startsHead, fun hs => .other hs ⟨?_, ?_, h3⟩ hi⟩
    · intro hm
      obtain ⟨front, tail, rfl, hh⟩ := hs
      obtain ⟨n, hn⟩ := Option.ne_none_iff_exists'.mp (hh.arg_ne_none (by rw [hm]; rfl))
      exact h1 n hm hn
    · intro hm
      obtain ⟨front, tail, rfl, hh⟩ := hs
      obtain ⟨n, hn⟩ := Option.ne_none_iff_exists'.mp (hh.arg_ne_none (by rw [hm]; rfl))
      exact h2 n hm hn

/-! ## 3. Fields in any order -/

/-- One step of the loop over the entries of a map with fields. -/
inductive KeyedStep (s : Shape) (r : Reading) (fields : List Field) (found : Found) :
    Bytes → Found → Prop where
  /-- The key of no field; its value is passed over. -/
  | unknown {key : KeyItem} {u v : Bytes} (hk : KeyAt r key u)
      (hf : (fields.find? fun f => key == .field f.key) = none) (he : s.extensible)
      (hv : Item (r.depth + 1) v) : KeyedStep s r fields found (u ++ v) found
  | literal {key : KeyItem} {f : Field} {l : Literal} {u v : Bytes} (hk : KeyAt r key u)
      (hf : (fields.find? fun f => key == .field f.key) = some f)
      (hnew : f.key ∉ found.map Prod.fst) (hb : f.body = .literal l)
      (hv : LiteralAt s.name r.options.maxStringLength l v) :
      KeyedStep s r fields found (u ++ v) ((f.key, none) :: found)
  | value {key : KeyItem} {f : Field} {type : TypeExpr} {presence : Presence} {u v : Bytes}
      {x : Value} (hk : KeyAt r key u) (hf : (fields.find? fun f => key == .field f.key) = some f)
      (hnew : f.key ∉ found.map Prod.fst) (hb : f.body = .value type presence)
      (hv : r.PartAt type x v) : KeyedStep s r fields found (u ++ v) ((f.key, some x) :: found)

section keyed

variable {fields : List Field}

theorem any_key_eq {found : Found} {key : FieldKey} :
    (found.any fun e => e.1 == key) = true ↔ key ∈ found.map Prod.fst := by
  simp only [List.any_eq_true, beq_iff_eq, List.mem_map]

/-- A field is found by its key. -/
theorem find_key {fields : List Field} (hn : (fields.map Field.key).Nodup) {f : Field}
    (hf : f ∈ fields) : (fields.find? fun f' => KeyItem.field f.key == .field f'.key) = some f := by
  induction fields with
  | nil => cases hf
  | cons f' fs ih =>
    obtain ⟨hnew, hn⟩ := List.nodup_cons.mp hn
    rcases List.mem_cons.mp hf with rfl | hf
    · exact List.find?_cons_of_pos (by simp)
    · have hne : f.key ≠ f'.key := by
        intro hk
        exact hnew (List.mem_map.mpr ⟨f, hf, hk⟩)
      rw [List.find?_cons_of_neg (by simpa using hne)]
      exact ih hn hf

theorem KeyedStep.inRow {found found' : Found} {x : Bytes}
    (h : KeyedStep s r fields found x found') : InRow IsItem 2 x := by
  cases h with
  | unknown hk hf he hv => exact (InRow.single hk.isItem).append (InRow.single hv.isItem)
  | literal hk hf hnew hb hv => exact (InRow.single hk.isItem).append (InRow.single hv.isItem)
  | value hk hf hnew hb hv => exact (InRow.single hk.isItem).append (InRow.single hv.item)

theorem keyedStep_startsItem (found : Found) (x : Bytes) (found' : Found)
    (h : KeyedStep s r fields found x found') : Scan.StartsItem x := h.inRow.startsItem

theorem keyedStep_reads (found : Found) (x : Bytes) (found' : Found)
    (h : KeyedStep s r fields found x found') :
    (s.readKeyedEntry r fields found).Reads x found' := by
  cases h with
  | unknown hk hf he hv =>
    refine (readKeyItem_reads hk).bind ?_
    rw [hf]
    dsimp only
    rw [if_pos he]
    exact Reads.bind_nil (Reads.scan (Scan.skip_reads hv)) (Reads.pure _)
  | literal hk hf hnew hb hv =>
    refine (readKeyItem_reads hk).bind ?_
    rw [hf]
    dsimp only
    rw [if_neg fun hany => hnew (any_key_eq.mp hany), hb]
    exact Reads.bind_nil (expectLiteral_reads hv) (Reads.pure _)
  | value hk hf hnew hb hv =>
    refine (readKeyItem_reads hk).bind ?_
    rw [hf]
    dsimp only
    rw [if_neg fun hany => hnew (any_key_eq.mp hany), hb]
    exact Reads.bind_nil hv.reads (Reads.pure _)

theorem readKeyedEntry_yields (hr : r.Sound) (s : Shape) (fields : List Field) (found : Found) :
    (s.readKeyedEntry r fields found).Yields fun found' x =>
    KeyedStep s r fields found x found' := by
  refine (readKeyItem_yields r).bind fun key u hk => ?_
  split
  · rename_i hf
    split
    · rename_i he
      refine (Yields.scan (Scan.skip_yields r.depth)).bind fun _ v hv => Yields.pure ?_
      rw [List.append_nil]
      exact .unknown hk hf he hv
    · exact Yields.fail _
  · rename_i f hf
    split
    · exact Yields.fail _
    · rename_i hnew
      replace hnew := fun hmem => hnew (any_key_eq.mpr hmem)
      split
      · rename_i l hb
        refine (expectLiteral_yields s.name _ f.key l).bind fun _ v hv => Yields.pure ?_
        rw [List.append_nil]
        exact .literal hk hf hnew hb hv
      · rename_i type presence hb
        refine (hr.partAt type).bind fun x v hv => Yields.pure ?_
        rw [List.append_nil]
        exact .value hk hf hnew hb hv

theorem keyedSteps_inRow {found found' : Found} {k : Nat} {inner : Bytes}
    (h : Steps (KeyedStep s r fields) k found inner found') : InRow IsItem (k * 2) inner := by
  induction h with
  | nil => exact .nil
  | cons hx _ ih =>
    rw [Nat.succ_mul, Nat.add_comm]
    exact hx.inRow.append ih

/-! ## 4. Maps -/

/-- A map of a shape. -/
inductive Shape.MapAt (s : Shape) (r : Reading) : Parts → Bytes → Prop where
  | entries {key value : TypeExpr} {e : Pending} {es : List (Bytes × Value × Value)}
      {front inner u : Bytes} (hl : s.layout = some (.entries key value))
      (ho : s.Opens r .map e front) (hb : e.Body es.length inner u)
      (hes : Row (EntryAt r key value) es inner) (hkeys : (es.map Prod.fst).Nodup) :
      MapAt s r { name := s.name, content := .entries (es.map fun e => e.2), style := e.style }
        (front ++ u)
  | fields {fields : List Field} {e : Pending} {found : Found} {k : Nat} {front inner u : Bytes}
      (hl : s.layout = some (.fields fields)) (ho : s.Opens r .map e front)
      (hb : e.Body k inner u) (hs : Steps (KeyedStep s r fields) k [] inner found)
      (hc : checkPresent s.name found fields = .ok ()) :
      MapAt s r { name := s.name, content := .fields (slotsOf fields found), style := e.style }
        (front ++ u)

theorem readMap_reads {parts : Parts} {u : Bytes} (h : s.MapAt r parts u) :
    (s.readMap r).Reads u parts := by
  cases h with
  | entries hl ho hb hes hkeys =>
    refine (openCollection_reads ho).bind ?_
    rw [hl]
    exact Reads.bind_nil (readEntries_reads hb hes hkeys) (Reads.pure _)
  | fields hl ho hb hs hc =>
    refine (openCollection_reads ho).bind ?_
    rw [hl]
    refine Reads.bind_nil ?_ (Reads.pure _)
    refine Reads.bind_nil (Pending.fold_reads keyedStep_startsItem keyedStep_reads hb hs) ?_
    exact Reads.bind_nil (Reads.ofExcept hc) (Reads.pure _)

theorem readKeyed_yields (hr : r.Sound) (s : Shape) (fields : List Field) (e : Pending) :
    (s.readKeyed r fields e).Yields fun slots u => ∃ found k inner,
      slots = slotsOf fields found ∧ e.Body k inner u ∧
      Steps (KeyedStep s r fields) k [] inner found ∧
      checkPresent s.name found fields = .ok () := by
  refine (Pending.fold_yields keyedStep_startsItem keyedStep_reads
    (readKeyedEntry_yields hr s fields) e []).bind fun found u hu => ?_
  obtain ⟨k, inner, hb, hs⟩ := hu
  refine Yields.after fun _ hc => Yields.pure ?_
  rw [List.append_nil]
  exact ⟨found, k, inner, rfl, hb, hs, hc⟩

theorem readMap_yields (hr : r.Sound) (s : Shape) : (s.readMap r).Yields (s.MapAt r) := by
  refine (openCollection_yields s r .map).bind fun e front ho => ?_
  split
  · rename_i key value hl
    refine (readEntries_yields hr s.name key value e).bind fun vs u hu => Yields.pure ?_
    obtain ⟨es, inner, rfl, hb, hes, hkeys⟩ := hu
    rw [List.append_nil]
    exact .entries hl ho hb hes hkeys
  · rename_i fields hl
    refine (readKeyed_yields hr s fields e).bind fun slots u hu => Yields.pure ?_
    obtain ⟨found, k, inner, rfl, hb, hs, hc⟩ := hu
    rw [List.append_nil]
    exact .fields hl ho hb hs hc
  · exact Yields.fail _

/-- **A map of a shape is one item.** -/
theorem Shape.MapAt.item {parts : Parts} {u : Bytes} (h : s.MapAt r parts u) : IsItem u := by
  cases h with
  | entries hl ho hb hes hkeys => exact (ho.item rfl hb hes.entries_inRow).isItem
  | fields hl ho hb hs hc => exact (ho.item rfl hb (keyedSteps_inRow hs)).isItem

/-! ## 5. The parts of a map -/

/-- The fields that were read, each once, and a value only under the key of a field that holds
    one. -/
structure Found.Of (fields : List Field) (found : Found) : Prop where
  nodup : (found.map Prod.fst).Nodup
  value : ∀ k x, (k, some x) ∈ found → ∃ f ∈ fields, f.isLiteral = false ∧ f.key = k

/-- The parts of the entries that were read, in the order of the entries. -/
theorem keyedSteps_found {found found' : Found} {k : Nat} {inner : Bytes}
    (h : Steps (KeyedStep s r fields) k found inner found') (hfound : found.Of fields) :
    found'.Of fields ∧ ∃ new, r.Cut new inner ∧
      (found'.filterMap Prod.snd).Perm (new ++ found.filterMap Prod.snd) := by
  induction h with
  | nil => exact ⟨hfound, [], .own [], .refl _⟩
  | cons hx _ ih =>
    cases hx with
    | unknown hk hf he hv =>
      obtain ⟨hof, new, hcut, hp⟩ := ih hfound
      exact ⟨hof, new, .front _ hcut, hp⟩
    | literal hk hf hnew hb hv =>
      obtain ⟨hof, new, hcut, hp⟩ := ih ⟨List.nodup_cons.mpr ⟨hnew, hfound.nodup⟩, fun k x hx => by
        rcases List.mem_cons.mp hx with hx | hx
        · cases hx
        · exact hfound.value k x hx⟩
      exact ⟨hof, new, .front _ hcut, hp⟩
    | value hk hf hnew hb hv =>
      rename_i key f type presence u v x _
      obtain ⟨hof, new, hcut, hp⟩ := ih ⟨List.nodup_cons.mpr ⟨hnew, hfound.nodup⟩, fun k y hy => by
        rcases List.mem_cons.mp hy with hy | hy
        · cases hy
          exact ⟨f, List.mem_of_find?_eq_some hf, by simp [Field.isLiteral, hb], rfl⟩
        · exact hfound.value k y hy⟩
      refine ⟨hof, x :: new, ?_, hp.trans List.perm_middle⟩
      rw [List.append_assoc]
      exact .front u (hv.cut.append hcut)

/-- One key more, under which one field looks. -/
theorem filterMap_insert {fields : List Field} (hn : (fields.map Field.key).Nodup) {f : Field}
    (hf : f ∈ fields) {g : FieldKey → Option Value} (hg : g f.key = none) (x : Value) :
    (fields.filterMap fun f' => if f'.key = f.key then some x else g f'.key).Perm
      (x :: fields.filterMap fun f' => g f'.key) := by
  induction fields with
  | nil => cases hf
  | cons f' fs ih =>
    obtain ⟨hnew, hn⟩ := List.nodup_cons.mp hn
    by_cases hk : f'.key = f.key
    · have hrest : (fs.filterMap fun f' => if f'.key = f.key then some x else g f'.key) =
          fs.filterMap fun f' => g f'.key := by
        refine List.filterMap_congr fun f'' hf'' => ?_
        refine if_neg fun h => hnew ?_
        exact List.mem_map.mpr ⟨f'', hf'', h.trans hk.symm⟩
      rw [List.filterMap_cons, List.filterMap_cons, if_pos hk, hrest, hk, hg]
    · have hmem : f ∈ fs := by
        rcases List.mem_cons.mp hf with rfl | h
        · exact absurd rfl hk
        · exact h
      rw [List.filterMap_cons, List.filterMap_cons, if_neg hk]
      cases g f'.key with
      | none => exact ih hn hmem
      | some y => exact ((ih hn hmem).cons y).trans (.swap x y _)

/-- **The slots hold what was read under the keys of the fields, each once.** -/
theorem slotsOf_perm {fields : List Field} (hn : (fields.map Field.key).Nodup) {found : Found}
    (hfound : found.Of fields) :
    ((slotsOf fields found).filterMap id).Perm (found.filterMap Prod.snd) := by
  have hslots : ∀ found : Found, (slotsOf fields found).filterMap id =
      (fields.filter fun f => !f.isLiteral).filterMap fun f => (found.lookup f.key).join := by
    intro found
    rw [slotsOf, List.filterMap_map]
    rfl
  have hkeys : ((fields.filter fun f => !f.isLiteral).map Field.key).Nodup :=
    hn.sublist (List.filter_sublist.map _)
  rw [hslots]
  obtain ⟨hnodup, hvalue⟩ := hfound
  induction found with
  | nil => simp
  | cons e found ih =>
    obtain ⟨k, o⟩ := e
    obtain ⟨hnew, hnodup⟩ := List.nodup_cons.mp hnodup
    have ih := ih hnodup fun k x hx => hvalue k x (List.mem_cons_of_mem _ hx)
    have hnone : found.lookup k = none := by
      rw [List.lookup_eq_none_iff]
      intro e hmem
      rw [bne_iff_ne]
      intro hk
      exact hnew (List.mem_map.mpr ⟨e, hmem, hk.symm⟩)
    have hlook : ∀ f : Field, (((k, o) :: found).lookup f.key).join =
        if f.key = k then o else (found.lookup f.key).join := by
      intro f
      by_cases hk : f.key = k
      · simp [hk]
      · rw [List.lookup_cons, beq_eq_false_iff_ne.mpr hk, if_neg hk]
    simp only [hlook]
    cases o with
    | none =>
      refine List.Perm.trans (.of_eq ?_) ih
      refine List.filterMap_congr fun f _ => ?_
      by_cases hk : f.key = k
      · rw [if_pos hk, hk, hnone]
        rfl
      · rw [if_neg hk]
    | some x =>
      obtain ⟨f, hf, hl, rfl⟩ := hvalue k x List.mem_cons_self
      have hmem : f ∈ fields.filter fun f => !f.isLiteral := by simp [hf, hl]
      refine (filterMap_insert hkeys hmem (g := fun k => (found.lookup k).join) ?_ x).trans ?_
      · rw [hnone]
        rfl
      · exact ih.cons x

/-- **Each part of a map lies somewhere in its bytes**, where the keys of the fields differ. -/
theorem Shape.MapAt.cut {parts : Parts} {u : Bytes} (h : s.MapAt r parts u)
    (hn : (s.fields.map Field.key).Nodup) : r.Cut parts.content.parts u := by
  cases h with
  | entries hl ho hb hes hkeys =>
    obtain ⟨w, rfl⟩ := hb.behind
    have hcut := hes.cut fun _ _ h => h.cut
    rw [← List.flatMap_map (f := fun e : Bytes × Value × Value => e.2)
      (g := fun e : Value × Value => [e.1, e.2])] at hcut
    exact .front _ (.back w hcut)
  | fields hl ho hb hs hc =>
    obtain ⟨w, rfl⟩ := hb.behind
    rw [Shape.fields, hl] at hn
    obtain ⟨hfound, new, hcut, hp⟩ := keyedSteps_found hs ⟨by simp, by simp⟩
    rw [List.filterMap_nil, List.append_nil] at hp
    exact .front _ (.back w (hcut.perm (hp.symm.trans (slotsOf_perm hn hfound).symm)))

end keyed

end CborSchema
