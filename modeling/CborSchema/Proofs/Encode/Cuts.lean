import CborSchema.Proofs.Encode.Written
import Mathlib.Data.List.Basic
import Mathlib.Data.List.TakeWhile

/-!
# The parts of a value in what is written

* `alignFields_slots`, `writtenFields_slots` -- no slot that holds a value is left out;
* `ArrayAs.cut`, `MapAs.cut`, `KindAs.cut` -- each part is written somewhere in the bytes of the
  item;
* `Codec.WriteAs.cut` -- and so is each part of a value that is not replayed.
-/

namespace CborSchema

variable {s : Shape} {w : Writing}

/-- The bytes of an item cut into those of its parts and its own. -/
abbrev Writing.Cut (w : Writing) (parts : List Value) (u : Bytes) : Prop :=
  CborSchema.Cut (fun v => w.PartAs v.type v) parts u

theorem Writing.PartAs.cut {t : TypeExpr} {v : Value} {u : Bytes} (h : w.PartAs t v u) :
    w.Cut [v] u := by
  obtain rfl := h.type
  exact .part h

/-! ## 1. Slots -/

/-- Each field of a tuple with its slot, a literal without one. -/
theorem alignFields_literal {fields : List Field} {slots : List (Option Value)}
    {e : Field × Option Value} (he : e ∈ alignFields fields slots) (hl : e.1.isLiteral = true) :
    e.2 = none := by
  induction fields generalizing slots with
  | nil => cases he
  | cons f fs ih =>
    unfold alignFields at he
    split at he
    · rcases List.mem_cons.mp he with rfl | he
      · rfl
      · exact ih he
    · rename_i hf
      split at he
      · rcases List.mem_cons.mp he with rfl | he
        · exact absurd hl hf
        · exact ih he
      · rcases List.mem_cons.mp he with rfl | he
        · exact absurd hl hf
        · exact ih he

/-- **Every slot stands with a field**, where there are as many as fields that are no literals. -/
theorem alignFields_slots {fields : List Field} {slots : List (Option Value)}
    (hn : slots.length = fields.countP fun f => !f.isLiteral) :
    (alignFields fields slots).filterMap Prod.snd = slots.filterMap id := by
  induction fields generalizing slots with
  | nil =>
    obtain rfl := List.eq_nil_of_length_eq_zero hn
    rfl
  | cons f fs ih =>
    unfold alignFields
    split
    · rename_i hf
      rw [List.countP_cons_of_neg (by simp [hf])] at hn
      rw [List.filterMap_cons_none rfl, ih hn]
    · rename_i hf
      rw [List.countP_cons_of_pos (by simp [hf])] at hn
      cases slots with
      | nil => cases hn
      | cons slot slots =>
        have hrest := ih (Nat.succ.inj hn)
        cases slot with
        | none => simpa using hrest
        | some v => simpa using hrest

/-- What stands in the slot of a field is a part. -/
theorem mem_parts_of_aligned {fields : List Field} {slots : List (Option Value)}
    (hn : slots.length = fields.countP fun f => !f.isLiteral) {e : Field × Option Value}
    (he : e ∈ alignFields fields slots) {z : Value} (hz : e.2 = some z) :
    z ∈ (Content.fields slots).parts := by
  rw [Content.parts, ← alignFields_slots hn]
  exact List.mem_filterMap.mpr ⟨e, he, hz⟩

/-- What is not written of a tuple is left out at its end. -/
theorem writtenFields_append (entries : List (Field × Option Value)) :
    ∃ tail, entries = writtenFields entries ++ tail ∧ ∀ e ∈ tail, omitted e = true := by
  refine ⟨(entries.reverse.takeWhile omitted).reverse, ?_, fun e he => ?_⟩
  · rw [writtenFields, ← List.reverse_append, List.takeWhile_append_dropWhile, List.reverse_reverse]
  · exact List.mem_takeWhile_imp (List.mem_reverse.mp he)

theorem writtenFields_slots (entries : List (Field × Option Value)) :
    (writtenFields entries).filterMap Prod.snd = entries.filterMap Prod.snd := by
  obtain ⟨tail, hentries, htail⟩ := writtenFields_append entries
  have hnone : tail.filterMap Prod.snd = [] := by
    refine List.filterMap_eq_nil_iff.mpr fun e he => ?_
    have h := htail e he
    rw [omitted, Bool.and_eq_true] at h
    exact Option.isNone_iff_eq_none.mp h.1
  conv_rhs => rw [hentries, List.filterMap_append, hnone, List.append_nil]

theorem mem_of_mem_writtenFields {entries : List (Field × Option Value)}
    {e : Field × Option Value} (he : e ∈ writtenFields entries) : e ∈ entries := by
  obtain ⟨tail, hentries, _⟩ := writtenFields_append entries
  rw [hentries]
  exact List.mem_append_left _ he

/-! ## 2. Collections -/

/-- What stands around the parts of a collection is its own. -/
theorem collectionBytes_cut {α : Type} {P : α → Bytes → Prop} {parts : List α} {inner : Bytes}
    (h : Cut P parts inner) (m : Major) (indefinite : Bool) (n : Nat) :
    Cut P parts (collectionBytes m indefinite n inner) := by
  rw [collectionBytes]
  split
  · exact .back _ (.front _ h)
  · exact .front _ h

theorem ElementAs.cut {e : Field × Option Value} {x : Bytes} (h : ElementAs w e x)
    (hl : e.1.isLiteral = true → e.2 = none) : w.Cut e.2.toList x := by
  cases h with
  | literal hf =>
    have hnone := hl (by simp [Field.isLiteral, hf])
    dsimp only at hnone
    subst hnone
    exact .own _
  | value hf hv => exact hv.cut
  | null hf => exact .own _

theorem KeyedAs.cut {e : Field × Option Value} {x : Bytes} (h : KeyedAs w e x)
    (hl : e.1.isLiteral = true → e.2 = none) : w.Cut e.2.toList x := by
  cases h with
  | literal hf =>
    have hnone := hl (by simp [Field.isLiteral, hf])
    dsimp only at hnone
    subst hnone
    exact .own _
  | value hf hv => exact .front _ hv.cut
  | absent hf => exact .own _

theorem Shape.arity_of_layout {fields : List Field} (hl : s.layout = some (.fields fields)) :
    s.arity = fields.countP fun f => !f.isLiteral := by
  rw [arity, Shape.fields, hl]

/-- **The parts of an array are written one behind the other.** -/
theorem Shape.ArrayAs.cut {p : Pieces} {u : Bytes} (h : s.ArrayAs w p u) :
    w.Cut p.content.parts u := by
  cases h with
  | items hl hc hv =>
    rw [hc]
    exact collectionBytes_cut (hv.cut fun _ _ h => h.cut).singles _ _ _
  | fields hl hc hn he =>
    rename_i fields slots inner
    rw [hc]
    refine collectionBytes_cut ?_ _ _ _
    have hcut := he.mem.cut fun e x h =>
      h.2.cut (alignFields_literal (mem_of_mem_writtenFields h.1))
    rw [← List.filterMap_eq_flatMap_toList, writtenFields_slots,
      alignFields_slots (hn.trans (arity_of_layout hl))] at hcut
    exact hcut

theorem EntryAs.cut {key value : TypeExpr} {e : Value × Value} {x : Bytes}
    (h : EntryAs w key value e x) : w.Cut [e.1, e.2] x := by
  obtain ⟨k, u, rfl, hk, hu⟩ := h
  exact hk.cut.append hu.cut

theorem Shape.MapAs.cut {p : Pieces} {u : Bytes} (h : s.MapAs w p u) :
    w.Cut p.content.parts u := by
  cases h with
  | entries hl hc he =>
    rw [hc]
    exact collectionBytes_cut (he.cut fun _ _ h => h.cut) _ _ _
  | fields hl hc hn hp he =>
    rw [hc]
    refine collectionBytes_cut ?_ _ _ _
    have hcut := he.mem.cut fun e x h => h.2.cut (alignFields_literal h.1)
    rw [← List.filterMap_eq_flatMap_toList,
      alignFields_slots (hn.trans (arity_of_layout hl))] at hcut
    exact hcut

/-- **Each part of an item is written somewhere in its bytes.** -/
theorem Shape.KindAs.cut {p : Pieces} {u : Bytes} (h : s.KindAs w p u) :
    w.Cut p.content.parts u := by
  cases h with
  | scalar hk hc hx =>
    rw [hc]
    exact .own _
  | list hk h => exact h.cut
  | map hk h => exact h.cut
  | constructor hk h =>
    cases h with
    | mk hi hu => exact .front _ hu.cut
  | union hk h =>
    cases h with
    | mk hc hm hv =>
      rw [hc]
      exact hv.cut

/-! ## 3. Values -/

/-- **What is written for a value replays the bytes it kept, or each of its parts is written in
    it.** -/
theorem Codec.WriteAs.cut {c : Codec} {o : EncodeOptions} {depth : Nat} {t : TypeExpr} {v : Value}
    {b : Bytes} (h : c.WriteAs o depth t v b) :
    (∃ s, c.resolve v.type = .ok s ∧ s.preserveRaw = true ∧ v.notes.raw = some b) ∨
      (∀ s, c.resolve v.type = .ok s → s.preserveRaw = true → v.notes.raw = none) ∧
        (c.writing o depth).Cut v.content.parts b := by
  cases h with
  | replayed hs hp ht hr =>
    subst ht
    exact .inl ⟨_, hs, hp, hr⟩
  | taken hs hr hp hk =>
    obtain rfl := pieces_type hp
    refine .inr ⟨fun s' hs' hp' => ?_, ?_⟩
    · rw [hs, Except.ok.injEq] at hs'
      subst hs'
      exact hr hp'
    · rw [← pieces_parts hp]
      exact .front _ hk.cut

end CborSchema
