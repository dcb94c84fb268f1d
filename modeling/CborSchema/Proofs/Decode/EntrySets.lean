import CborSchema.Proofs.Decode.Discriminated
import CborSchema.Proofs.Decode.Elements
import CborSchema.Proofs.Decode.Keys
import CborSchema.Proofs.Roundtrip.Admitted
import CborSchema.Proofs.Roundtrip.Presence
import Mathlib.Data.List.Forall2

/-!
# Maps with fields as sets of entries

A map with fields is read entry by entry, with marks on the fields that were met and slots that fill
up step by step. What comes out is said here of the entries as a set: which of them are taken, that
no two are of one field, that none is missing, and what each slot holds.

* `Field.HeldBy`, `Shape.Finds`, `Shape.Passes` -- an entry of a field, and one that is passed over;
  `keyedStep_iff`: a step of the loop takes an entry of either kind;
* `found_of_steps`, `steps_of_takes` -- what a run over entries finds, and which entries it runs
  over;
* `SlotIn`, `Shape.EntrySet` -- a set of entries and the slots it fills; `EntrySet.unique`: in one
  way only;
* `EntrySet.perm`, `EntrySet.append_iff`, `EntrySet.counts` -- other orders, entries more or less,
  and how often the key of a field is there;
* `mapHolds_iff` -- **what lies in a map with fields is such a set**, whatever the order of the
  entries;
* `MapItem`, `MapItem.reads_iff` -- such a map on the wire, and when it is read;
* `Catalog.TakesSlots`, `construct_slots_iff` -- what the type makes of the slots;
* `Catalog.KeyedAsSet`, `Catalog.keyed_maps_are_sets` -- **a map with fields is decoded as a set of
  entries.**
-/

namespace CborSchema

open Decoder

variable {s : Shape} {r : Reading} {fields : List Field} {found found' : Found}

/-! ## 1. Entries -/

/-- What a field holds: its literal, or a value of its type. -/
inductive Field.HeldBy (f : Field) (s : Shape) (r : Reading) (v : Bytes) : Option Value → Prop where
  | literal {l : Literal} (hb : f.body = .literal l)
      (hv : LiteralAt s.name r.options.maxStringLength l v) : HeldBy f s r v none
  | value {type : TypeExpr} {presence : Presence} {x : Value} (hb : f.body = .value type presence)
      (hv : r.PartAt type x v) : HeldBy f s r v (some x)

theorem Field.HeldBy.isItem {f : Field} {v : Bytes} {slot : Option Value}
    (h : f.HeldBy s r v slot) : IsItem v := by
  cases h with
  | literal hb hv => exact hv.isItem
  | value hb hv => exact hv.item

theorem Field.HeldBy.unique {f : Field} {v : Bytes} {slot slot' : Option Value}
    (h : f.HeldBy s r v slot) (h' : f.HeldBy s r v slot') : slot = slot' := by
  cases h with
  | literal hb hv =>
    cases h' with
    | literal hb' hv' => rfl
    | value hb' hv' => cases hb.symm.trans hb'
  | value hb hv =>
    cases h' with
    | literal hb' hv' => cases hb.symm.trans hb'
    | value hb' hv' =>
      obtain ⟨rfl, -⟩ := FieldBody.value.inj (hb.symm.trans hb')
      rw [hv.reads.unique hv'.reads]

/-- An entry of a field, the bytes of its key and of its value, and what the field holds. -/
def Shape.Finds (s : Shape) (r : Reading) (fields : List Field) (w : Bytes × Bytes)
    (e : FieldKey × Option Value) : Prop :=
  ∃ f ∈ fields, f.key = e.1 ∧ KeyAt r (.field f.key) w.1 ∧ f.HeldBy s r w.2 e.2

/-- An entry that is passed over: its key is that of no field, and the shape is extensible. -/
structure Shape.Passes (s : Shape) (r : Reading) (fields : List Field)
    (w : Bytes × Bytes) : Prop where
  extensible : s.extensible = true
  key : ∃ key, KeyAt r key w.1 ∧ ∀ f ∈ fields, key ≠ .field f.key
  value : Item (r.depth + 1) w.2

theorem Shape.Passes.no_field {w : Bytes × Bytes} (h : s.Passes r fields w) {f : Field}
    (hf : f ∈ fields) : ¬ KeyAt r (.field f.key) w.1 := by
  intro hk
  obtain ⟨key, hkey, hno⟩ := h.key
  exact hno f hf (hkey.unique hk)

theorem Shape.Finds.keyAt {w : Bytes × Bytes} {e : FieldKey × Option Value}
    (h : s.Finds r fields w e) : KeyAt r (.field e.1) w.1 := by
  obtain ⟨f, _, hkey, hk, _⟩ := h
  rwa [hkey] at hk

/-- An entry is of one field. -/
theorem Shape.Finds.unique (hn : (fields.map Field.key).Nodup) {w : Bytes × Bytes}
    {e e' : FieldKey × Option Value} (h : s.Finds r fields w e) (h' : s.Finds r fields w e') :
    e = e' := by
  obtain ⟨f, hf, hkey, hk, hh⟩ := h
  obtain ⟨f', hf', hkey', hk', hh'⟩ := h'
  obtain rfl := List.inj_on_of_nodup_map hn hf hf' (KeyItem.field.inj (hk.unique hk'))
  exact Prod.ext (hkey.symm.trans hkey') (hh.unique hh')

/-- An entry that a shape takes. -/
def Shape.TakesEntry (s : Shape) (r : Reading) (fields : List Field) (w : Bytes × Bytes) : Prop :=
  s.Passes r fields w ∨ ∃ e, s.Finds r fields w e

theorem Shape.TakesEntry.isItem {w : Bytes × Bytes} (h : s.TakesEntry r fields w) :
    IsItem w.1 ∧ IsItem w.2 := by
  rcases h with h | ⟨_, _, _, _, hk, hh⟩
  · obtain ⟨_, hk, _⟩ := h.key
    exact ⟨hk.isItem, h.value.isItem⟩
  · exact ⟨hk.isItem, hh.isItem⟩

/-- **A step takes one entry**: it is passed over, or it is the first of its field. -/
theorem keyedStep_iff (hn : (fields.map Field.key).Nodup) {w : Bytes × Bytes} (hw : IsItem w.1) :
    KeyedStep s r fields found (w.1 ++ w.2) found' ↔ (s.Passes r fields w ∧ found' = found) ∨
      ∃ e, s.Finds r fields w e ∧ e.1 ∉ found.map Prod.fst ∧ found' = e :: found := by
  constructor
  · intro h
    have field {key : KeyItem} {f : Field}
        (hf : (fields.find? fun f => key == .field f.key) = some f) : f ∈ fields ∧
        key = .field f.key :=
      ⟨List.mem_of_find?_eq_some hf, by simpa using List.find?_some hf⟩
    generalize hx : w.1 ++ w.2 = x at h
    cases h with
    | unknown hk hf he hv =>
      obtain ⟨rfl, rfl⟩ := hk.isItem.cancel hw hx.symm
      refine .inl ⟨⟨he, ⟨_, hk, fun f hmem hkey => ?_⟩, hv⟩, rfl⟩
      exact List.find?_eq_none.mp hf f hmem (beq_iff_eq.mpr hkey)
    | literal hk hf hnew hb hv =>
      obtain ⟨rfl, rfl⟩ := hk.isItem.cancel hw hx.symm
      obtain ⟨hmem, rfl⟩ := field hf
      exact .inr ⟨_, ⟨_, hmem, rfl, hk, .literal hb hv⟩, hnew, rfl⟩
    | value hk hf hnew hb hv =>
      obtain ⟨rfl, rfl⟩ := hk.isItem.cancel hw hx.symm
      obtain ⟨hmem, rfl⟩ := field hf
      exact .inr ⟨_, ⟨_, hmem, rfl, hk, .value hb hv⟩, hnew, rfl⟩
  · rintro (⟨h, rfl⟩ | ⟨⟨k, slot⟩, ⟨f, hf, hkey, hk, hh⟩, hnew, rfl⟩)
    · obtain ⟨key, hk, hno⟩ := h.key
      refine .unknown hk (List.find?_eq_none.mpr fun f hf => ?_) h.extensible h.value
      simpa using hno f hf
    · dsimp only at hkey hh hnew
      subst hkey
      cases hh with
      | literal hb hv => exact .literal hk (find_key hn hf) hnew hb hv
      | value hb hv => exact .value hk (find_key hn hf) hnew hb hv

/-! ## 2. Runs over entries -/

/-- Entries of as many items stand on the wire in one way only; by induction on the entries. -/
theorem wireBytes_inj {ws ws' : List (Bytes × Bytes)} (hitems : ∀ w ∈ ws, IsItem w.1 ∧ IsItem w.2)
    (hitems' : ∀ w ∈ ws', IsItem w.1 ∧ IsItem w.2) (hlength : ws.length = ws'.length)
    (h : wireBytes ws = wireBytes ws') : ws = ws' := by
  induction ws generalizing ws' with
  | nil => exact (List.length_eq_zero_iff.mp hlength.symm).symm
  | cons w ws ih =>
    obtain ⟨w', ws', rfl⟩ := List.exists_cons_of_length_eq_add_one hlength.symm
    obtain ⟨⟨hw, hv⟩, hitems⟩ := List.forall_mem_cons.mp hitems
    obtain ⟨⟨hw', hv'⟩, hitems'⟩ := List.forall_mem_cons.mp hitems'
    simp only [wireBytes, List.flatMap_cons, List.append_assoc] at h
    obtain ⟨hkey, h⟩ := hw.cancel hw' h
    obtain ⟨hvalue, h⟩ := hv.cancel hv' h
    rw [Prod.ext hkey hvalue, ih hitems hitems' (Nat.succ.inj hlength) h]

/-- Entries are found one after the other. -/
theorem keyedSteps_cons_iff {w : Bytes × Bytes} {ws : List (Bytes × Bytes)} (hw : IsItem w.1)
    (hw' : IsItem w.2) :
    Steps (KeyedStep s r fields) (w :: ws).length found (wireBytes (w :: ws)) found' ↔
      ∃ t, KeyedStep s r fields found (w.1 ++ w.2) t ∧
        Steps (KeyedStep s r fields) ws.length t (wireBytes ws) found' := by
  constructor
  · intro h
    generalize hbytes : wireBytes (w :: ws) = bytes at h
    cases h with
    | cons hx hs =>
      have hrow : InRow IsItem 2 (w.1 ++ w.2) := (InRow.single hw).append (.single hw')
      obtain ⟨rfl, rfl⟩ := hrow.cancel hx.inRow hbytes
      exact ⟨_, hx, hs⟩
  · rintro ⟨t, hx, hs⟩
    exact .cons hx hs

/-- **What a run finds** is what was found before, and what each entry of a field holds; by
    induction on the entries. -/
theorem found_of_steps (hn : (fields.map Field.key).Nodup) {ws : List (Bytes × Bytes)}
    (hitems : ∀ w ∈ ws, IsItem w.1 ∧ IsItem w.2)
    (h : Steps (KeyedStep s r fields) ws.length found (wireBytes ws) found') :
    (∀ w ∈ ws, s.TakesEntry r fields w) ∧
      ∀ e, e ∈ found' ↔ e ∈ found ∨ ∃ w ∈ ws, s.Finds r fields w e := by
  induction ws generalizing found with
  | nil =>
    cases h
    exact ⟨by simp, by simp⟩
  | cons w ws ih =>
    obtain ⟨⟨hw, hw'⟩, hitems⟩ := List.forall_mem_cons.mp hitems
    obtain ⟨t, hstep, hs⟩ := (keyedSteps_cons_iff hw hw').mp h
    obtain ⟨htakes, hfound⟩ := ih hitems hs
    rcases (keyedStep_iff hn hw).mp hstep with ⟨hpass, rfl⟩ | ⟨e, hfinds, _, rfl⟩
    · refine ⟨List.forall_mem_cons.mpr ⟨.inl hpass, htakes⟩, fun e => ?_⟩
      have hno : ¬ s.Finds r fields w e := by
        rintro ⟨f, hf, _, hk, _⟩
        exact hpass.no_field hf hk
      rw [hfound]
      simp [hno]
    · refine ⟨List.forall_mem_cons.mpr ⟨.inr ⟨e, hfinds⟩, htakes⟩, fun e' => ?_⟩
      have hone : s.Finds r fields w e' ↔ e' = e :=
        ⟨fun h => h.unique hn hfinds, fun h => h ▸ hfinds⟩
      rw [hfound]
      simp only [List.mem_cons, or_and_right, exists_or, exists_eq_left, hone]
      tauto

/-- **Entries that a shape takes are run over**, where no two are of one field and none is of a
    field that was found before; by induction on the entries. -/
theorem steps_of_takes (hn : (fields.map Field.key).Nodup) {ws : List (Bytes × Bytes)}
    (htakes : ∀ w ∈ ws, s.TakesEntry r fields w) (hapart : ws.Pairwise (s.KeysApart r fields))
    (hnew : ∀ w ∈ ws, ∀ e, s.Finds r fields w e → e.1 ∉ found.map Prod.fst) :
    ∃ found', Steps (KeyedStep s r fields) ws.length found (wireBytes ws) found' := by
  induction ws generalizing found with
  | nil => exact ⟨found, .nil⟩
  | cons w ws ih =>
    obtain ⟨hfirst, htakes⟩ := List.forall_mem_cons.mp htakes
    obtain ⟨hpair, hapart⟩ := List.pairwise_cons.mp hapart
    obtain ⟨hnewFirst, hnew⟩ := List.forall_mem_cons.mp hnew
    obtain ⟨hw, hw'⟩ := hfirst.isItem
    rcases hfirst with hpass | ⟨e, hfinds⟩
    · obtain ⟨found', hs⟩ := ih htakes hapart hnew
      exact ⟨found', (keyedSteps_cons_iff hw hw').mpr
        ⟨found, (keyedStep_iff hn hw).mpr (.inl ⟨hpass, rfl⟩), hs⟩⟩
    · have hnew' : ∀ w' ∈ ws, ∀ e', s.Finds r fields w' e' → e'.1 ∉ (e :: found).map Prod.fst := by
        intro w' hw' e' hfinds' hmem
        rcases List.mem_cons.mp hmem with hsame | hmem
        · -- the field of the entry in front is not that of an entry behind it
          obtain ⟨f, hf, hkey, -, -⟩ := id hfinds
          refine (hpair w' hw' _ hfinds.keyAt (hsame ▸ hfinds'.keyAt)).2 f hf ?_
          rw [hkey]
        · exact hnew w' hw' e' hfinds' hmem
      obtain ⟨found', hs⟩ := ih htakes hapart hnew'
      exact ⟨found', (keyedSteps_cons_iff hw hw').mpr
        ⟨e :: found, (keyedStep_iff hn hw).mpr (.inr ⟨e, hfinds, hnewFirst e hfinds, rfl⟩), hs⟩⟩

theorem checkPresent_iff {name : String} : checkPresent name found fields = .ok () ↔
    ∀ f ∈ fields, f.presence ≠ .optional → f.key ∈ found.map Prod.fst := by
  constructor
  · exact fun h f hf hp => checkPresent_found h hf hp
  · intro h
    refine checkPresent_eq_ok fun f hf => ?_
    by_cases hp : f.presence = .optional
    · exact .inl hp
    · exact .inr (h f hf hp)

/-! ## 3. Sets of entries -/

/-- The slot of a field: what an entry holds under its key, if one does. -/
inductive SlotIn (s : Shape) (r : Reading) (fields : List Field) (ws : List (Bytes × Bytes))
    (f : Field) : Option Value → Prop where
  | absent (h : ∀ w ∈ ws, ¬ KeyAt r (.field f.key) w.1) : SlotIn s r fields ws f none
  | present {w : Bytes × Bytes} {x : Value} (hw : w ∈ ws)
      (hx : s.Finds r fields w (f.key, some x)) : SlotIn s r fields ws f (some x)

/-- A set of entries, and the slots that it fills. -/
structure Shape.EntrySet (s : Shape) (r : Reading) (fields : List Field) (ws : List (Bytes × Bytes))
    (slots : List (Option Value)) : Prop where
  takes : ∀ w ∈ ws, s.TakesEntry r fields w
  apart : ws.Pairwise (s.KeysApart r fields)
  present : ∀ f ∈ fields, f.presence ≠ .optional → ∃ w ∈ ws, KeyAt r (.field f.key) w.1
  slots : List.Forall₂ (SlotIn s r fields ws) (fields.filter fun f => !f.isLiteral) slots

theorem Shape.KeysApart.symm {w w' : Bytes × Bytes} (h : s.KeysApart r fields w w') :
    s.KeysApart r fields w' w := fun key hk hk' => h key hk' hk

/-- No two entries are of one field. -/
theorem Shape.Finds.same_entry {ws : List (Bytes × Bytes)}
    (hapart : ws.Pairwise (s.KeysApart r fields)) {w w' : Bytes × Bytes} (hw : w ∈ ws)
    (hw' : w' ∈ ws) {e e' : FieldKey × Option Value} (h : s.Finds r fields w e)
    (h' : s.Finds r fields w' e') (hkey : e.1 = e'.1) : w = w' := by
  by_contra hne
  have : Std.Symm (s.KeysApart r fields) := ⟨fun _ _ => Shape.KeysApart.symm⟩
  obtain ⟨f, hf, hf', -, -⟩ := id h
  refine (hapart.forall hw hw' hne _ h.keyAt (hkey ▸ h'.keyAt)).2 f hf ?_
  rw [hf']

/-- **Entries fill slots in one way only.** -/
theorem Shape.EntrySet.unique (hn : (fields.map Field.key).Nodup) {ws : List (Bytes × Bytes)}
    {slots slots' : List (Option Value)} (h : s.EntrySet r fields ws slots)
    (h' : s.EntrySet r fields ws slots') : slots = slots' := by
  refine List.right_unique_forall₂' (fun f a b ha hb => ?_) h.slots h'.slots
  cases ha with
  | absent hno =>
    cases hb with
    | absent => rfl
    | present hw hx =>
      exact absurd hx.keyAt (hno _ hw)
  | present hw hx =>
    cases hb with
    | absent hno =>
      exact absurd hx.keyAt (hno _ hw)
    | present hw' hx' =>
      obtain rfl := hx.same_entry h.apart hw hw' hx' rfl
      exact congrArg Prod.snd (hx.unique hn hx')

/-- A slot is filled by the entries of its field, whatever the others. -/
theorem SlotIn.congr {ws ws' : List (Bytes × Bytes)} {f : Field} {slot : Option Value}
    (h : SlotIn s r fields ws f slot)
    (hsame : ∀ w, KeyAt r (.field f.key) w.1 → (w ∈ ws ↔ w ∈ ws')) :
    SlotIn s r fields ws' f slot := by
  cases h with
  | absent hno => exact .absent fun w hw hk => hno w ((hsame w hk).mpr hw) hk
  | present hw hx => exact .present ((hsame _ hx.keyAt).mp hw) hx

/-- **Other orders of the entries fill the same slots.** -/
theorem Shape.EntrySet.perm {ws ws' : List (Bytes × Bytes)} {slots : List (Option Value)}
    (h : s.EntrySet r fields ws slots) (hp : ws.Perm ws') : s.EntrySet r fields ws' slots where
  takes w hw := h.takes w (hp.mem_iff.mpr hw)
  apart := hp.pairwise h.apart Shape.KeysApart.symm
  present f hf hpresence := by
    obtain ⟨w, hw, hk⟩ := h.present f hf hpresence
    exact ⟨w, hp.mem_iff.mp hw, hk⟩
  slots := h.slots.imp fun _ _ hslot => hslot.congr fun _ _ => hp.mem_iff

/-- An entry that is passed over shares its key with no field, and so with none of the entries that
    count. -/
theorem Shape.Passes.apart {w' : Bytes × Bytes} (h : s.Passes r fields w') (w : Bytes × Bytes) :
    s.KeysApart r fields w w' := by
  intro key _ hk
  obtain ⟨key', hk', hno⟩ := h.key
  obtain rfl := hk.unique hk'
  exact ⟨h.extensible, hno⟩

/-- **Entries that are passed over fill no slots**, and stand in the way of none. -/
theorem Shape.EntrySet.append_iff {ws extra : List (Bytes × Bytes)} {slots : List (Option Value)}
    (hextra : ∀ w ∈ extra, s.Passes r fields w) :
    s.EntrySet r fields (ws ++ extra) slots ↔ s.EntrySet r fields ws slots := by
  have hsame {f : Field} (hf : f ∈ fields) (w : Bytes × Bytes) (hk : KeyAt r (.field f.key) w.1) :
      w ∈ ws ++ extra ↔ w ∈ ws := by
    rw [List.mem_append]
    exact or_iff_left fun hw => (hextra w hw).no_field hf hk
  have hfield {f : Field} (hf : f ∈ fields.filter fun f => !f.isLiteral) : f ∈ fields :=
    (List.mem_filter.mp hf).1
  constructor
  · rintro ⟨htakes, hapart, hpresent, hslots⟩
    refine ⟨fun w hw => htakes w (List.mem_append_left _ hw), (List.pairwise_append.mp hapart).1,
      fun f hf hp => ?_, ?_⟩
    · obtain ⟨w, hw, hk⟩ := hpresent f hf hp
      exact ⟨w, (hsame hf w hk).mp hw, hk⟩
    · refine (List.forall₂_and_left _ _).mpr ⟨fun _ => id, hslots⟩ |>.imp fun f _ h => ?_
      exact h.2.congr (hsame (hfield h.1))
  · rintro ⟨htakes, hapart, hpresent, hslots⟩
    refine ⟨fun w hw => ?_, List.pairwise_append.mpr
      ⟨hapart, ?_, fun w _ w' hw' => (hextra w' hw').apart w⟩,
      fun f hf hp => ?_, ?_⟩
    · exact (List.mem_append.mp hw).elim (htakes w) fun hw => .inl (hextra w hw)
    · exact List.pairwise_of_forall_mem_list fun w _ w' hw' => (hextra w' hw').apart w
    · obtain ⟨w, hw, hk⟩ := hpresent f hf hp
      exact ⟨w, List.mem_append_left _ hw, hk⟩
    · refine (List.forall₂_and_left _ _).mpr ⟨fun _ => id, hslots⟩ |>.imp fun f _ h => ?_
      exact h.2.congr fun w hk => (hsame (hfield h.1) w hk).symm

theorem count_le_one {α : Type} [DecidableEq α] {a : α} {as : List α}
    (h : as.Pairwise fun b b' => b = a → b' ≠ a) : as.count a ≤ 1 := by
  by_contra hlt
  have htwice : (List.replicate 2 a).Sublist as :=
    List.replicate_sublist_iff.mpr (Nat.lt_of_not_le hlt)
  have hpair := h.sublist htwice
  simp at hpair

/-- **How often the keys of the fields are there**: of no field twice, and once of each that must
    be. -/
theorem Shape.EntrySet.counts {ws : List (Bytes × Bytes)} {slots : List (Option Value)}
    (h : s.EntrySet r fields ws slots) :
    ∃ keys, List.Forall₂ (fun w key => KeyAt r key w.1) ws keys ∧
      ∀ f ∈ fields, keys.count (.field f.key) ≤ 1 ∧
        (f.presence ≠ .optional → keys.count (.field f.key) = 1) := by
  have hkey : ∀ w ∈ ws, ∃ key, KeyAt r key w.1 := by
    intro w hw
    rcases h.takes w hw with hpass | ⟨e, hfinds⟩
    · obtain ⟨key, hk, _⟩ := hpass.key
      exact ⟨key, hk⟩
    · exact ⟨_, hfinds.keyAt⟩
  have : Nonempty KeyItem := ⟨.other ""⟩
  choose! key hkey using hkey
  refine ⟨ws.map key, ?_, fun f hf => ?_⟩
  · exact List.forall₂_map_right_iff.mpr (List.forall₂_same.mpr hkey)
  · have hpair : (ws.map key).Pairwise fun k k' => k = .field f.key → k' ≠ .field f.key := by
      refine List.pairwise_map.mpr (h.apart.imp_of_mem fun {w w'} hw hw' hapart hk hk' => ?_)
      exact (hapart _ (hk ▸ hkey w hw) (hk' ▸ hkey w' hw')).2 f hf rfl
    have hle := count_le_one hpair
    refine ⟨hle, fun hp => Nat.le_antisymm hle ?_⟩
    obtain ⟨w, hw, hk⟩ := h.present f hf hp
    exact List.one_le_count_iff.mpr (List.mem_map.mpr ⟨w, hw, (hkey w hw).unique hk⟩)

/-! ## 4. Maps with fields -/

theorem Shape.TakesEntry.finds {w : Bytes × Bytes} (h : s.TakesEntry r fields w) {f : Field}
    (hf : f ∈ fields) (hk : KeyAt r (.field f.key) w.1) :
    ∃ slot, s.Finds r fields w (f.key, slot) := by
  rcases h with hpass | ⟨⟨key, slot⟩, hfinds⟩
  · exact absurd hk (hpass.no_field hf)
  · obtain rfl := KeyItem.field.inj (hfinds.keyAt.unique hk)
    exact ⟨slot, hfinds⟩

/-- The slot of a field is what was found under its key. -/
theorem slotIn_lookup (hn : (fields.map Field.key).Nodup) {ws : List (Bytes × Bytes)}
    (htakes : ∀ w ∈ ws, s.TakesEntry r fields w)
    (hfound : ∀ e, e ∈ found ↔ ∃ w ∈ ws, s.Finds r fields w e) {f : Field} (hf : f ∈ fields)
    (hl : f.isLiteral = false) : SlotIn s r fields ws f (found.lookup f.key).join := by
  have hmem {slot : Option Value} (h : found.lookup f.key = some slot) :
      ∃ w ∈ ws, s.Finds r fields w (f.key, slot) := by
    obtain ⟨front, back, rfl, _⟩ := List.lookup_eq_some_iff.mp h
    exact (hfound _).mp (by simp)
  rcases hlook : found.lookup f.key with _ | _ | x
  · refine .absent fun w hw hk => ?_
    obtain ⟨slot, hfinds⟩ := (htakes w hw).finds hf hk
    have hne := List.lookup_eq_none_iff.mp hlook _ ((hfound _).mpr ⟨w, hw, hfinds⟩)
    simp at hne
  · obtain ⟨w, hw, f', hf', hkey, _, hh⟩ := hmem hlook
    obtain rfl := List.inj_on_of_nodup_map hn hf' hf hkey
    cases hh with
    | literal hb _ => simp [Field.isLiteral, hb] at hl
  · obtain ⟨w, hw, hx⟩ := hmem hlook
    exact .present hw hx

/-- **What a run leaves is the slots of a set of entries.** -/
theorem exists_entrySet (hn : (fields.map Field.key).Nodup) {k : Nat} {inner : Bytes}
    (hs : Steps (KeyedStep s r fields) k [] inner found)
    (hc : checkPresent s.name found fields = .ok ()) :
    ∃ ws, ws.length = k ∧ inner = wireBytes ws ∧ s.EntrySet r fields ws (slotsOf fields found) := by
  obtain ⟨ws, rfl, rfl, hws, -, hapart⟩ := keyedSteps_apart hs
  have hitems : ∀ w ∈ ws, IsItem w.1 ∧ IsItem w.2 := by
    intro w hw
    obtain ⟨hv, _, hk⟩ := hws w hw
    exact ⟨hk.isItem, hv⟩
  obtain ⟨htakes, hfound⟩ := found_of_steps hn hitems hs
  simp only [List.not_mem_nil, false_or] at hfound
  refine ⟨ws, rfl, rfl, htakes, hapart, fun f hf hp => ?_, ?_⟩
  · obtain ⟨e, he, hkey⟩ := List.mem_map.mp (checkPresent_iff.mp hc f hf hp)
    obtain ⟨w, hw, hfinds⟩ := (hfound e).mp he
    exact ⟨w, hw, hkey ▸ hfinds.keyAt⟩
  · refine List.forall₂_map_right_iff.mpr (List.forall₂_same.mpr fun f hf => ?_)
    obtain ⟨hf, hl⟩ := List.mem_filter.mp hf
    exact slotIn_lookup hn htakes hfound hf (by simpa using hl)

/-- The entries of such a set are those that stand in the bytes. -/
theorem entrySet_of_steps (hn : (fields.map Field.key).Nodup) {ws : List (Bytes × Bytes)}
    (hitems : ∀ w ∈ ws, IsItem w.1 ∧ IsItem w.2)
    (hs : Steps (KeyedStep s r fields) ws.length [] (wireBytes ws) found)
    (hc : checkPresent s.name found fields = .ok ()) :
    s.EntrySet r fields ws (slotsOf fields found) := by
  obtain ⟨ws', hlength, hbytes, hset⟩ := exists_entrySet hn hs hc
  have hitems' : ∀ w ∈ ws', IsItem w.1 ∧ IsItem w.2 := fun w hw => (hset.takes w hw).isItem
  obtain rfl := wireBytes_inj hitems hitems' hlength.symm hbytes
  exact hset

/-- **What lies in a map with fields is a set of entries**, and its content the slots that they
    fill. -/
theorem mapHolds_iff (hl : s.layout = some (.fields fields)) (hn : (fields.map Field.key).Nodup)
    {ws : List (Bytes × Bytes)} (hitems : ∀ w ∈ ws, IsItem w.1 ∧ IsItem w.2)
    {content : Content Value} : s.MapHolds r content ws.length (wireBytes ws) ↔
      ∃ slots, content = .fields slots ∧ s.EntrySet r fields ws slots := by
  constructor
  · intro h
    generalize hlength : ws.length = n at h
    generalize hbytes : wireBytes ws = inner at h
    cases h with
    | entries hl' => cases hl.symm.trans hl'
    | fields hl' hs hc =>
      obtain rfl := Layout.fields.inj (Option.some.inj (hl.symm.trans hl'))
      subst hlength hbytes
      exact ⟨_, rfl, entrySet_of_steps hn hitems hs hc⟩
  · rintro ⟨slots, rfl, h⟩
    have hnew : ∀ w ∈ ws, ∀ e, s.Finds r fields w e → e.1 ∉ ([] : Found).map Prod.fst := by simp
    obtain ⟨found, hs⟩ := steps_of_takes hn h.takes h.apart hnew
    obtain ⟨_, hfound⟩ := found_of_steps hn hitems hs
    have hc : checkPresent s.name found fields = .ok () := by
      refine checkPresent_iff.mpr fun f hf hp => ?_
      obtain ⟨w, hw, hk⟩ := h.present f hf hp
      obtain ⟨slot, hfinds⟩ := (h.takes w hw).finds hf hk
      exact List.mem_map.mpr ⟨_, (hfound _).mpr (.inr ⟨w, hw, hfinds⟩), rfl⟩
    obtain rfl := h.unique hn (entrySet_of_steps hn hitems hs hc)
    exact .fields hl hs hc

/-! ## 5. Maps on the wire -/

theorem wire_inRow {ws : List (Bytes × Bytes)} (hitems : ∀ w ∈ ws, IsItem w.1 ∧ IsItem w.2) :
    InRow IsItem (ws.length * 2) (wireBytes ws) := by
  induction ws with
  | nil => exact .nil
  | cons w ws ih =>
    obtain ⟨⟨hw, hv⟩, hitems⟩ := List.forall_mem_cons.mp hitems
    rw [List.length_cons, Nat.succ_mul, Nat.add_comm]
    exact ((InRow.single hw).append (.single hv)).append (ih hitems)

/-- A map on the wire: a tag if there is one, the head, and the entries up to the end. -/
structure MapItem where
  tag : Bytes
  head : Head
  front : Bytes
  entries : List (Bytes × Bytes)
  body : Bytes
  tagged : tag = [] ∨ ∃ g : Head, g.Spelled tag ∧ g.major = .tag
  spelled : head.Spelled front
  major : head.major = .map
  holds : head.pending.Body entries.length (wireBytes entries) body
  items : ∀ w ∈ entries, IsItem w.1 ∧ IsItem w.2

namespace MapItem

/-- The map without its tag. -/
def untagged (m : MapItem) : Bytes := m.front ++ m.body

def bytes (m : MapItem) : Bytes := m.tag ++ m.untagged

/-- How many entries there are, where this is announced, is within the limit. -/
def Within (m : MapItem) (o : DecodeOptions) : Prop :=
  ∀ n, m.head.arg = some n → n.toNat ≤ o.maxCollectionLength.toNat

theorem isItem (m : MapItem) : IsItem m.bytes := by
  have hwidth : m.head.major.perElement = some 2 := by
    rw [m.major]
    rfl
  have hmap : IsItem m.untagged :=
    (ItemOf.of_body m.spelled hwidth m.holds (wire_inRow m.items)).isItem
  rcases m.tagged with htag | ⟨g, hg, hm⟩
  · rwa [bytes, htag]
  · exact (ItemOf.tagged hg hm hmap).isItem

theorem startsHead (m : MapItem) : ∃ h, StartsHead h m.untagged ∧ h.major ≠ .tag :=
  ⟨m.head, m.spelled.starts m.body, by simp [m.major]⟩

end MapItem

/-- What may stand in front of an item of a shape. -/
inductive Shape.TagAt (s : Shape) : Bytes → Prop where
  | none (ht : s.tag = none) : TagAt s []
  | left {n : UInt64} (ht : s.tag = some (.optional n)) : TagAt s []
  | there {rule : TagRule} {g : Head} {tag : Bytes} (ht : s.tag = some rule) (hg : g.Spelled tag)
      (hm : g.major = .tag) (ha : g.arg.getD 0 = rule.number) : TagAt s tag

theorem Shape.MapAt.startsHead {parts : Parts} {u : Bytes} (h : s.MapAt r parts u) :
    ∃ g, StartsHead g u ∧ g.major ≠ .tag := by
  obtain ⟨e, front, body, _, _, _, rfl, ho, _⟩ := Shape.mapAt_iff.mp h
  obtain ⟨g, hg, hm⟩ := ho.startsHead body
  exact ⟨g, hg, by simp [hm]⟩

/-- The content of a map is found behind the tag that the shape asks for. -/
theorem MapItem.kept_iff (m : MapItem) (hk : s.kind = .map) {content : Content Value} :
    (∃ parts, s.KeptAt r parts m.bytes ∧ parts.content = content) ↔
      s.TagAt m.tag ∧ ∃ parts, s.MapAt r parts m.untagged ∧ parts.content = content := by
  have hitem {parts : Parts} (h : s.ItemAt r parts m.bytes) :
      s.TagAt m.tag ∧ ∃ parts', s.MapAt r parts' m.untagged ∧ parts'.content = parts.content := by
    generalize hu : m.bytes = u at h
    cases h with
    | untagged ht hkind =>
      have hmap := hkind.mapAt hk
      obtain rfl := behind_tag_unique m.tagged (.inl rfl) m.startsHead hmap.startsHead hu
      have hnil : m.tag = [] := List.append_left_eq_self.mp hu
      exact ⟨hnil ▸ .none ht, _, hmap, rfl⟩
    | absent ht _ _ hkind =>
      have hmap := hkind.mapAt hk
      obtain rfl := behind_tag_unique m.tagged (.inl rfl) m.startsHead hmap.startsHead hu
      have hnil : m.tag = [] := List.append_left_eq_self.mp hu
      exact ⟨hnil ▸ .left ht, _, hmap, rfl⟩
    | tagged ht hh hm ha hkind =>
      have hmap := hkind.mapAt hk
      obtain rfl := behind_tag_unique m.tagged (.inr ⟨_, hh, hm⟩) m.startsHead hmap.startsHead hu
      obtain rfl := List.append_cancel_right hu
      exact ⟨.there ht hh hm ha, _, hmap, rfl⟩
  constructor
  · rintro ⟨parts, h, rfl⟩
    generalize hu : m.bytes = u at h
    cases h with
    | kept _ hi =>
      subst hu
      have hbehind := hitem hi
      exact hbehind
    | dropped _ hi => exact hitem (hu ▸ hi)
  · rintro ⟨htag, parts, hmap, rfl⟩
    have htagged : ∃ parts', s.ItemAt r parts' m.bytes ∧ parts'.content = parts.content := by
      rw [MapItem.bytes]
      generalize m.tag = tag at htag
      cases htag with
      | none ht => exact ⟨_, .untagged ht (.map hk hmap), rfl⟩
      | left ht =>
        obtain ⟨g, hg, hm⟩ := hmap.startsHead
        exact ⟨_, .absent ht hg hm (.map hk hmap), rfl⟩
      | there ht hg hm ha => exact ⟨_, .tagged ht hg hm ha (.map hk hmap), rfl⟩
    obtain ⟨parts', hi, hcontent⟩ := htagged
    obtain ⟨kept, hkept, hsame⟩ := hi.kept
    exact ⟨kept, hkept, hsame.trans hcontent⟩

/-- A map with fields behind its tag. -/
theorem MapItem.mapAt_iff (m : MapItem) (hl : s.layout = some (.fields fields))
    (hn : (fields.map Field.key).Nodup) {content : Content Value} :
    (∃ parts, s.MapAt r parts m.untagged ∧ parts.content = content) ↔
      s.requireFraming m.head.isIndefinite = .ok () ∧ m.Within r.options ∧
        ∃ slots, content = .fields slots ∧ s.EntrySet r fields m.entries slots := by
  rw [← mapHolds_iff hl hn m.items]
  constructor
  · rintro ⟨parts, h, rfl⟩
    obtain ⟨e, front, body, content, n, inner, hu, ho, hb, hholds, rfl⟩ := Shape.mapAt_iff.mp h
    obtain ⟨head, hhead, -, rfl, hframing, hmax⟩ := Shape.opens_iff.mp ho
    obtain ⟨rfl, rfl, rfl⟩ := m.spelled.cancel hhead hu
    obtain ⟨rfl, rfl⟩ := m.holds.unique hb (by simp) (wire_inRow m.items) hholds.inRow
    exact ⟨hframing, hmax, hholds⟩
  · rintro ⟨hframing, hmax, hholds⟩
    have hopens : s.Opens r .map m.head.pending m.front :=
      Shape.opens_iff.mpr ⟨m.head, m.spelled, m.major, rfl, hframing, hmax⟩
    exact ⟨_, Shape.mapAt_iff.mpr ⟨_, _, _, _, _, _, rfl, hopens, m.holds, hholds, rfl⟩, rfl⟩

/-- What is kept of a map with fields stands on the wire as such a map. -/
theorem Shape.KeptAt.exists_mapItem {parts : Parts} {u : Bytes} (h : s.KeptAt r parts u)
    (hk : s.kind = .map) (hl : s.layout = some (.fields fields)) : ∃ m : MapItem, u = m.bytes := by
  obtain ⟨tag, inner, parts', rfl, hkind, -, -, htag⟩ := h.behind_tag
  obtain ⟨e, front, body, content, n, inner, rfl, ho, hb, hholds, -⟩ :=
    Shape.mapAt_iff.mp (hkind.mapAt hk)
  obtain ⟨head, hhead, hmajor, rfl, -, -⟩ := Shape.opens_iff.mp ho
  cases hholds with
  | entries hl' => cases hl.symm.trans hl'
  | fields hl' hs hc =>
    obtain ⟨ws, rfl, rfl, hws, -, -⟩ := keyedSteps_apart hs
    have hitems : ∀ w ∈ ws, IsItem w.1 ∧ IsItem w.2 := by
      intro w hw
      obtain ⟨hv, _, hkey⟩ := hws w hw
      exact ⟨hkey.isItem, hv⟩
    exact ⟨⟨tag, head, front, ws, body, htag, hhead, hmajor, hb, hitems⟩, rfl⟩

/-! ## 6. Maps that are read -/

variable {c : Catalog} {o : DecodeOptions} {depth : Nat} {t : TypeExpr} {content : Content Value}

/-- The slots that a declared type takes of those of an item: the first ones, as many as it asks
    for. -/
def Catalog.TakesSlots (c : Catalog) (t : TypeExpr) (s : Shape)
    (slots taken : List (Option Value)) : Prop :=
  ∃ name takes, t = .named name ∧ (c.declared name).conversion.reject = none ∧
    s.asksFor (c.declared name).conversion = .fields takes ∧
    List.Forall₂ Take.Fits (takes.getD s.takes) taken ∧ taken <+: slots

/-- Fields are those of a declared type. -/
theorem resolve_fields (hs : c.resolve t = .ok s) (hl : s.layout = some (.fields fields)) :
    ∃ name, t = .named name := by
  cases t with
  | named name => exact ⟨name, rfl⟩
  | _ =>
    cases hs
    cases hl

/-- Slots are taken by a type that asks for fields, the first ones. -/
theorem contentOf_slots_iff {conversion : Conversion} {p : Parts} {slots : List (Option Value)}
    (hp : p.content = .fields slots) {asks : Asks} :
    (∃ untaken, c.contentOf s conversion p asks = .ok (content, untaken)) ↔
      ∃ takes taken, asks = .fields takes ∧ content = .fields taken ∧
        List.Forall₂ Take.Fits (takes.getD s.takes) taken ∧ taken <+: slots := by
  constructor
  · rintro ⟨untaken, h⟩
    cases asks with
    | fields takes =>
      obtain ⟨⟨taken, left⟩, htaken, h⟩ := Except.bind_eq_ok h
      cases h
      rw [Catalog.fields, hp] at htaken
      obtain ⟨hfit, rest, rfl, -⟩ := takeSlots_eq_ok.mp htaken
      exact ⟨takes, taken, rfl, rfl, hfit, List.prefix_append _ _⟩
    | byShape | scalar =>
      obtain ⟨x, hx, -⟩ := Except.bind_eq_ok h
      rw [Parts.scalar, hp] at hx
      cases hx
    | variant accepted =>
      obtain ⟨x, hx, -⟩ := Except.bind_eq_ok h
      rw [Parts.variant.eq_def, hp] at hx
      cases hx
    | items item =>
      obtain ⟨vs, hvs, -⟩ := Except.bind_eq_ok h
      cases hp.symm.trans (items_eq_ok.mp hvs).1
    | entries key value =>
      obtain ⟨es, hes, -⟩ := Except.bind_eq_ok h
      cases hp.symm.trans (entries_eq_ok.mp hes).1
  · rintro ⟨takes, taken, rfl, rfl, hfit, rest, rfl⟩
    have htaken : c.fields (takes.getD s.takes) p = .ok (taken, rest.length) := by
      rw [Catalog.fields, hp]
      exact takeSlots_eq_ok.mpr ⟨hfit, rest, rfl, rfl⟩
    refine ⟨rest.length, ?_⟩
    rw [Catalog.contentOf, htaken]
    rfl

/-- **What is built of slots are the slots that the type takes**, and hangs on nothing else of the
    item. -/
theorem construct_slots_iff (hs : c.resolve t = .ok s) (hl : s.layout = some (.fields fields))
    {p : Parts} {slots : List (Option Value)} (hp : p.content = .fields slots) :
    (∃ v, c.construct t s p = .ok v ∧ v.content = content) ↔
      ∃ taken, content = .fields taken ∧ c.TakesSlots t s slots taken := by
  obtain ⟨name, rfl⟩ := resolve_fields hs hl
  constructor
  · rintro ⟨v, hv, rfl⟩
    obtain ⟨hreject, content, untaken, hcontent, rfl⟩ := construct_named_iff.mp hv
    obtain ⟨takes, taken, hasks, rfl, hfit, hprefix⟩ :=
      (contentOf_slots_iff hp).mp ⟨untaken, hcontent⟩
    exact ⟨taken, rfl, name, takes, rfl, hreject, hasks, hfit, hprefix⟩
  · rintro ⟨taken, rfl, name', takes, hname, hreject, hasks, hfit, hprefix⟩
    obtain rfl := TypeExpr.named.inj hname
    obtain ⟨untaken, hcontent⟩ :=
      (contentOf_slots_iff hp).mpr ⟨takes, taken, hasks, rfl, hfit, hprefix⟩
    exact ⟨_, construct_named_iff.mpr ⟨hreject, _, untaken, hcontent, rfl⟩, rfl⟩

/-- A type that asks for the fields of its shape takes all slots. -/
theorem Catalog.TakesSlots.whole {slots taken : List (Option Value)}
    (h : c.TakesSlots t s slots taken)
    (hasks : ∀ name, t = .named name → s.asksFor (c.declared name).conversion = .fields none)
    (hlength : slots.length = s.arity) : taken = slots := by
  obtain ⟨name, takes, rfl, _, htakes, hfit, hprefix⟩ := h
  obtain rfl := Asks.fields.inj (htakes.symm.trans (hasks name rfl))
  exact hprefix.eq_of_length ((hfit.length_eq.symm.trans (takes_length s)).trans hlength.symm)

/-- **A map with fields is read** in the framing of its shape, within the limits, as the slots that
    the type takes of those that its entries fill. -/
theorem MapItem.reads_iff (m : MapItem) (hs : c.resolve t = .ok s) (hk : s.kind = .map)
    (hl : s.layout = some (.fields fields)) :
    (∃ v, (c.codec.read o (depth + 1) t).Reads m.bytes v ∧ v.content = content) ↔
      s.TagAt m.tag ∧ s.requireFraming m.head.isIndefinite = .ok () ∧ m.Within o ∧
        ∃ slots taken, s.EntrySet (c.codec.reading o depth) fields m.entries slots ∧
          c.TakesSlots t s slots taken ∧ content = .fields taken := by
  have hn : (fields.map Field.key).Nodup := by
    have hkeys := check_keys (resolve_check hs).1 hk
    rwa [Shape.fields_of_layout hl] at hkeys
  constructor
  · rintro ⟨v, hread, hv⟩
    obtain ⟨parts, hkept, hbuilt⟩ := (Codec.readAt_of_reads (c.codec.sound o depth) hread).keptAt hs
    obtain ⟨htag, hmap⟩ := (m.kept_iff hk).mp ⟨parts, hkept, rfl⟩
    obtain ⟨hframing, hmax, slots, hslots, hset⟩ := (m.mapAt_iff hl hn).mp hmap
    obtain ⟨taken, hcontent, htaken⟩ := (construct_slots_iff hs hl hslots).mp ⟨v, hbuilt, hv⟩
    exact ⟨htag, hframing, hmax, slots, taken, hset, htaken, hcontent⟩
  · rintro ⟨htag, hframing, hmax, slots, taken, hset, htaken, rfl⟩
    have hmap := (m.mapAt_iff hl hn).mpr ⟨hframing, hmax, slots, rfl, hset⟩
    obtain ⟨parts, hkept, hslots⟩ := (m.kept_iff hk).mpr ⟨htag, hmap⟩
    obtain ⟨v, hbuilt, hv⟩ := (construct_slots_iff hs hl hslots).mpr ⟨taken, rfl, htaken⟩
    exact ⟨v, Codec.read_reads (.mk hs hkept hbuilt), hv⟩

/-- Two items are accepted as one: if one is read, the other is, and to the same content. -/
def Catalog.ReadAlike (c : Catalog) (o : DecodeOptions) (depth : Nat) (t : TypeExpr)
    (u u' : Bytes) : Prop :=
  ∀ rest content, (∃ v rest', (c.codec.read o depth t (u ++ rest)).result = .ok (v, rest') ∧
      v.content = content) ↔
    ∃ v rest', (c.codec.read o depth t (u' ++ rest)).result = .ok (v, rest') ∧ v.content = content

/-- Of an item it matters only what is read off it alone. -/
theorem Catalog.ReadAlike.of_reads {u u' : Bytes} (hu : IsItem u) (hu' : IsItem u')
    (h : ∀ content, (∃ v, (c.codec.read o depth t).Reads u v ∧ v.content = content) ↔
      ∃ v, (c.codec.read o depth t).Reads u' v ∧
        v.content = content) : c.ReadAlike o depth t u u' := by
  have halone {u : Bytes} (hu : IsItem u) (rest : Bytes) (content : Content Value) :
      (∃ v rest', (c.codec.read o depth t (u ++ rest)).result = .ok (v, rest') ∧
        v.content = content) ↔
        ∃ v, (c.codec.read o depth t).Reads u v ∧ v.content = content := by
    constructor
    · rintro ⟨v, rest', hread, hv⟩
      exact ⟨v, (Codec.reads_of_item hu hread).2, hv⟩
    · rintro ⟨v, hreads, hv⟩
      exact ⟨v, rest, hreads rest, hv⟩
  intro rest content
  rw [halone hu, halone hu', h]

/-- **Maps whose entries fill the same slots are read alike**, if they have the same tag and
    framing, and both are within the limit. -/
theorem MapItem.alike {m m' : MapItem} (hs : c.resolve t = .ok s) (hk : s.kind = .map)
    (hl : s.layout = some (.fields fields)) (htag : m'.tag = m.tag)
    (hframing : m'.head.isIndefinite = m.head.isIndefinite) (hmax : m'.Within o ↔ m.Within o)
    (hset : ∀ slots, s.EntrySet (c.codec.reading o depth) fields m'.entries slots ↔
      s.EntrySet (c.codec.reading o depth) fields m.entries slots) :
    c.ReadAlike o (depth + 1) t m'.bytes m.bytes := by
  refine .of_reads m'.isItem m.isItem fun content => ?_
  simp only [MapItem.reads_iff _ hs hk hl, htag, hframing, hmax, hset]

/-- What is accepted of a map with fields: which entries there are, and what becomes of them. -/
structure Catalog.TakenEntries (c : Catalog) (o : DecodeOptions) (depth : Nat) (t : TypeExpr)
    (s : Shape) (fields : List Field) (entries : List (Bytes × Bytes)) (v : Value) : Prop where
  /-- The key of a field that must be there is there once, and that of no field twice. -/
  counts : ∃ keys, List.Forall₂ (fun w key =>
    KeyAt (c.codec.reading o depth) key w.1) entries keys ∧
    ∀ f ∈ fields, keys.count (.field f.key) ≤ 1 ∧
      (f.presence ≠ .optional → keys.count (.field f.key) = 1)
  /-- Each slot holds what stands under its own key; they are all taken by a type that does not ask
      for others than its shape has. -/
  slots : ∃ slots taken, s.EntrySet (c.codec.reading o depth) fields entries slots ∧
    v.content = .fields taken ∧ taken <+: slots ∧
      ((∀ name, t = .named name → s.asksFor (c.declared name).conversion = .fields none) →
        taken = slots)

/-- A map with fields, read as a set of entries. -/
structure Catalog.KeyedAsSet (c : Catalog) (o : DecodeOptions) (depth : Nat) (t : TypeExpr)
    (s : Shape) (fields : List Field) : Prop where
  /-- What is accepted is a map, and its entries are as they must be. -/
  accepted : ∀ bytes v rest, (c.codec.read o (depth + 1) t bytes).result = .ok (v, rest) →
    ∃ m : MapItem, bytes = m.bytes ++ rest ∧ c.TakenEntries o depth t s fields m.entries v
  /-- In which order the entries stand does not matter. -/
  reordered : ∀ m m' : MapItem, m'.tag = m.tag → m'.head = m.head → m'.entries.Perm m.entries →
    c.ReadAlike o (depth + 1) t m'.bytes m.bytes
  /-- Entries under other keys do not matter to an extensible shape, wherever they stand. -/
  extended : ∀ (m m' : MapItem) extra, m'.tag = m.tag →
    m'.head.isIndefinite = m.head.isIndefinite → m.Within o → m'.Within o →
    (∀ w ∈ extra, s.Passes (c.codec.reading o depth) fields w) →
    m'.entries.Perm (m.entries ++ extra) →
    c.ReadAlike o (depth + 1) t m'.bytes m.bytes
  /-- A shape that is not extensible has none of them. -/
  refused : s.extensible = false → ∀ (m : MapItem), ∀ w ∈ m.entries,
    (∀ f ∈ fields, ¬ KeyAt (c.codec.reading o depth) (.field f.key) w.1) →
    ∀ rest p, (c.codec.read o (depth + 1) t (m.bytes ++ rest)).result ≠ .ok p

/-- **A map with fields is decoded as a set of entries.** Let a type resolve to a map with fields.
    What is accepted has the key of each field that must be there once and the key of no field
    twice, and each slot holds what stands under its own key. The order of the entries does not
    matter. Entries under keys of no field do not matter if the shape is extensible, and are refused
    if it is not. -/
theorem Catalog.keyed_maps_are_sets (c : Catalog) (o : DecodeOptions) (depth : Nat) {t : TypeExpr}
    {s : Shape} {fields : List Field} (hs : c.resolve t = .ok s) (hk : s.kind = .map)
    (hl : s.layout = some (.fields fields)) : c.KeyedAsSet o depth t s fields where
  accepted bytes v rest h := by
    obtain ⟨used, rfl, hreads, hat⟩ := Codec.read_yields (c.codec.sound o depth) t bytes v rest h
    obtain ⟨parts, hkept, -⟩ := hat.keptAt hs
    obtain ⟨m, rfl⟩ := hkept.exists_mapItem hk hl
    obtain ⟨-, -, -, slots, taken, hset, htaken, hv⟩ := (m.reads_iff hs hk hl).mp ⟨v, hreads, rfl⟩
    obtain ⟨-, -, -, -, -, -, hprefix⟩ := id htaken
    refine ⟨m, rfl, hset.counts, slots, taken, hset, hv, hprefix,
      fun hasks => htaken.whole hasks ?_⟩
    rw [← hset.slots.length_eq, Shape.arity, Shape.fields_of_layout hl,
      List.countP_eq_length_filter]
  reordered m m' htag hhead hperm := by
    refine MapItem.alike hs hk hl htag (by rw [hhead]) ?_ fun slots => ?_
    · rw [MapItem.Within, hhead, MapItem.Within]
    · exact ⟨fun h => h.perm hperm, fun h => h.perm hperm.symm⟩
  extended m m' extra htag hframing hmax hmax' hextra hperm := by
    refine MapItem.alike hs hk hl htag hframing (iff_of_true hmax' hmax) fun slots => ?_
    have happend : s.EntrySet (c.codec.reading o depth) fields (m.entries ++ extra) slots ↔
        s.EntrySet (c.codec.reading o depth) fields m.entries slots :=
          Shape.EntrySet.append_iff hextra
    exact ⟨fun h => happend.mp (h.perm hperm), fun h => (happend.mpr h).perm hperm.symm⟩
  refused hclosed m w hw hno rest p hread := by
    obtain ⟨-, hreads⟩ := Codec.reads_of_item m.isItem hread
    obtain ⟨-, -, -, slots, taken, hset, -, -⟩ := (m.reads_iff hs hk hl).mp ⟨p.1, hreads, rfl⟩
    rcases hset.takes w hw with hpass | ⟨e, hfinds⟩
    · rw [hpass.extensible] at hclosed
      cases hclosed
    · obtain ⟨f, hf, -, hat, -⟩ := hfinds
      exact hno f hf hat

/-- An open map with a literal, a field that must be there and one that may be: another order, and
    entries under another key even twice, are read to the same slots; a key too many or too few is
    refused. -/
theorem Catalog.an_open_map_is_a_set :
    let c : Catalog := {
      declared := fun _ => { schema :=
        (((Schema.map.withLiteral (.int 0) (.int 7)).withValue (.int 1) .uint64 .required).withValue
          (.int 2) .uint64 .optional).allowingExtras }
      printName := fun _ => "open" }
    let v : Value := .node (.named "open") (.fields [some (.ofScalar .uint64 (.uint 5)), none]) {}
    (∃ s fields, c.resolve (.named "open") = .ok s ∧ s.kind = .map ∧
      s.layout = some (.fields fields) ∧
      c.KeyedAsSet {} 255 (.named "open") s fields) ∧
    (c.codec.read {} 256 (.named "open") [0xa2, 0x00, 0x07, 0x01, 0x05]).result = .ok (v, []) ∧
    (c.codec.read {} 256 (.named "open") [0xa2, 0x01, 0x05, 0x00, 0x07]).result = .ok (v, []) ∧
    (c.codec.read {} 256 (.named "open")
      [0xa4, 0x09, 0x80, 0x01, 0x05, 0x09, 0x00, 0x18, 0x00, 0x07]).result = .ok (v, []) ∧
    (c.codec.read {} 256 (.named "open")
      [0xa3, 0x00, 0x07, 0x01, 0x05, 0x18, 0x00, 0x07]).result.toOption = none ∧
    (c.codec.read {} 256 (.named "open") [0xa1, 0x01, 0x05]).result.toOption = none := by
  intro c v
  refine ⟨⟨_, _, rfl, rfl, rfl, c.keyed_maps_are_sets {} 255 rfl rfl rfl⟩, ?_, ?_, ?_, ?_, ?_⟩
  all_goals cbv

end CborSchema
