import CborSchema.Proofs.Decode.Alike
import CborSchema.Proofs.Decode.Elements
import CborSchema.Proofs.Decode.Values
import Mathlib.Order.WellFounded

/-!
# What an item rests on

A reader that has read an item has read some parts, and has stayed within its limits. With limits no
smaller, any reader that reads these parts as it did reads the item as it did. Only a union rests on
more: on what the candidates before the one taken do not read.

* `Reading.Within` -- limits no smaller; `ScalarAt.mono`, `Opens.mono`, `KeyAt.mono`: what has no
  parts needs nothing else;
* `Reading.AgreesAt`, `Reading.RestsOn` -- what holds of every reading within limits no smaller that
  reads the same at given places;
* `Reading.Rests` -- there are such places; `Rests.part`, `Rests.and`, `Rests.imp` put them
  together;
* `Row.rests`, `Laid.rests`, `KeyedStep.rests`, `ArrayAt.rests`, `MapAt.rests` -- elements and
  entries rest on the values in them;
* `KeptAt.rests` -- **and so does an item of any kind but a union**, with its tag.
-/

namespace CborSchema

open Decoder

variable {s : Shape} {r r' : Reading}

/-! ## 1. Limits -/

/-- Limits on lengths that are no smaller. -/
structure DecodeOptions.LengthsWithin (o o' : DecodeOptions) : Prop where
  collection : o.maxCollectionLength.toNat ≤ o'.maxCollectionLength.toNat
  string : o.maxStringLength.toNat ≤ o'.maxStringLength.toNat

/-- Limits that are no smaller, on lengths and on the nesting that is left. -/
structure Reading.Within (r r' : Reading) : Prop where
  lengths : r.options.LengthsWithin r'.options
  depth : r.depth ≤ r'.depth

section limits

variable {u : Bytes} (hw : r.options.LengthsWithin r'.options)
include hw

theorem Shape.PayloadAfter.mono {m : Major} {h : Head} {payload : Bytes}
    (hp : s.PayloadAfter r m h payload u) : s.PayloadAfter r' m h payload u :=
  ⟨hp.major, hp.framing, hp.held.mono hw.string, hp.size⟩

theorem Shape.ScalarAt.mono {p : Primitive} {parts : Parts} (h : s.ScalarAt r p parts u) :
    s.ScalarAt r' p parts u := by
  cases h with
  | mk hh hx =>
    refine .mk hh ?_
    cases hx with
    | bool hb => exact .bool hb
    | null hn => exact .null hn
    | uint hn => exact .uint hn
    | int hn => exact .int hn
    | bytes hp => exact .bytes (hp.mono hw)
    | embedded hp => exact .embedded (hp.mono hw)
    | text hp ht => exact .text (hp.mono hw) ht

theorem LiteralAt.mono {name : String} {l : Literal}
    (h : LiteralAt name r.options.maxStringLength l u) :
    LiteralAt name r'.options.maxStringLength l u := by
  cases h with
  | mk hh hl =>
    refine .mk hh ?_
    cases hl with
    | int hm ha => exact .int hm ha
    | bool hb => exact .bool hb
    | text hm hp => exact .text hm (hp.mono hw.string)

theorem Shape.Opens.mono {m : Major} {e : Pending} (h : s.Opens r m e u) : s.Opens r' m e u := by
  obtain ⟨head, hh, hm, he, hf, hmax⟩ := Shape.opens_iff.mp h
  exact Shape.opens_iff.mpr
    ⟨head, hh, hm, he, hf, fun n hn => Nat.le_trans (hmax n hn) hw.collection⟩

end limits

/-- A key that a field can have is read whatever nesting is left. -/
theorem KeyAt.mono_field (hw : r.options.LengthsWithin r'.options) {key : FieldKey} {u : Bytes}
    (h : KeyAt r (.field key) u) : KeyAt r' (.field key) u := by
  generalize hkey : KeyItem.field key = k at h
  cases h with
  | unsigned hh hm hn => exact .unsigned hh hm hn
  | negative hh hm hn => exact .negative hh hm hn
  | text hh hm hp ht => exact .text hh hm (hp.mono hw.string) ht
  | other hh hm hi => cases hkey

theorem KeyAt.mono (hw : r.Within r') {key : KeyItem} {u : Bytes} (h : KeyAt r key u) :
    KeyAt r' key u := by
  cases h with
  | unsigned hh hm hn => exact .unsigned hh hm hn
  | negative hh hm hn => exact .negative hh hm hn
  | text hh hm hp ht => exact .text hh hm (hp.mono hw.lengths.string) ht
  | other hh hm hi => exact .other hh hm (hi.mono (Nat.succ_le_succ hw.depth))

/-! ## 2. Places -/

/-- A reading reads at some places what another one reads there: types, each off its bytes. -/
def Reading.AgreesAt (r r' : Reading) (places : List (TypeExpr × Bytes)) : Prop :=
  ∀ e ∈ places, ∀ v, r.PartAt e.1 v e.2 → r'.PartAt e.1 v e.2

/-- What holds of a reading rests on places of the given types: it holds of any reading with limits
    no smaller that reads the same there. -/
structure Reading.RestsOn (r : Reading) (ts : List TypeExpr) (X : Reading → Prop)
    (places : List (TypeExpr × Bytes)) : Prop where
  types : ∀ e ∈ places, e.1 ∈ ts
  enough : ∀ r', r.Within r' → r.AgreesAt r' places → X r'

/-- There are places that it rests on. -/
def Reading.Rests (r : Reading) (ts : List TypeExpr) (X : Reading → Prop) : Prop :=
  ∃ places, r.RestsOn ts X places

namespace Reading.Rests

variable {ts : List TypeExpr} {X Y : Reading → Prop}

/-- What has no parts rests on the limits alone. -/
theorem of (h : ∀ r', r.Within r' → X r') : r.Rests ts X :=
  ⟨[], by simp, fun r' hw _ => h r' hw⟩

/-- **A part rests on the place where it is read.** -/
theorem part {t : TypeExpr} {v : Value} {u : Bytes} (ht : t ∈ ts) (h : r.PartAt t v u) :
    r.Rests ts fun r' => r'.PartAt t v u :=
  ⟨[(t, u)], by simpa using ht, fun _ _ ha => ha (t, u) List.mem_cons_self v h⟩

theorem and (hX : r.Rests ts X) (hY : r.Rests ts Y) : r.Rests ts fun r' => X r' ∧ Y r' := by
  obtain ⟨places, hplaces, hX⟩ := hX
  obtain ⟨places', hplaces', hY⟩ := hY
  refine ⟨places ++ places', fun e he => ?_, fun r' hw ha => ⟨hX r' hw ?_, hY r' hw ?_⟩⟩
  · rcases List.mem_append.mp he with he | he
    · exact hplaces e he
    · exact hplaces' e he
  · exact fun e he => ha e (List.mem_append_left _ he)
  · exact fun e he => ha e (List.mem_append_right _ he)

theorem imp (hX : r.Rests ts X) (hXY : ∀ r', r.Within r' → X r' → Y r') : r.Rests ts Y := by
  obtain ⟨places, hplaces, hX⟩ := hX
  exact ⟨places, hplaces, fun r' hw ha => hXY r' hw (hX r' hw ha)⟩

/-- Of the lists of places that it rests on some are the shortest. -/
theorem shortest (hX : r.Rests ts X) : ∃ places, r.RestsOn ts X places ∧
    ∀ places', r.RestsOn ts X places' → places.length ≤ places'.length := by
  obtain ⟨places, hplaces, hleast⟩ :=
    WellFounded.has_min (measure List.length).wf {places | r.RestsOn ts X places} hX
  exact ⟨places, hplaces, fun places' h => Nat.le_of_not_lt (hleast places' h)⟩

end Reading.Rests

/-! ## 3. Elements -/

variable {ts : List TypeExpr}

theorem Row.rests {α : Type} {P : Reading → α → Bytes → Prop} {as : List α} {u : Bytes}
    (h : Row (P r) as u) (hP : ∀ a x, P r a x → r.Rests ts fun r' => P r' a x) :
    r.Rests ts fun r' => Row (P r') as u := by
  induction h with
  | nil => exact .of fun _ _ => .nil
  | cons hx _ ih => exact ((hP _ _ hx).and ih).imp fun _ _ h => .cons h.1 h.2

theorem Decoder.Steps.rests {σ : Type} {P : Reading → σ → Bytes → σ → Prop} {n : Nat} {a b : σ}
    {u : Bytes} (h : Steps (P r) n a u b)
    (hP : ∀ a x b, P r a x b → r.Rests ts fun r' => P r' a x b) :
    r.Rests ts fun r' => Steps (P r') n a u b := by
  induction h with
  | nil => exact .of fun _ _ => .nil
  | cons hx _ ih => exact ((hP _ _ _ hx).and ih).imp fun _ _ h => .cons h.1 h.2

theorem SlotAt.rests {type : TypeExpr} (ht : type ∈ ts) {presence : Presence} {slot : Option Value}
    {u : Bytes} (h : SlotAt r type presence slot u) :
    r.Rests ts fun r' => SlotAt r' type presence slot u := by
  cases h with
  | null hp => exact .of fun _ _ => .null hp
  | value hv hn => exact (Reading.Rests.part ht hv).imp fun _ _ hv => .value hv hn

/-- **Elements laid out over fields rest on the values in the slots.** Those past the last field
    rest on the nesting. -/
theorem Shape.Laid.rests {fields : List Field} (hts : ∀ f ∈ fields, ∀ type presence,
    f.body = .value type presence → type ∈ ts) {slots : List (Option Value)} {n : Nat} {u : Bytes}
    (h : s.Laid r fields slots n u) : r.Rests ts fun r' => s.Laid r' fields slots n u := by
  induction h with
  | past hx hk =>
    exact .of fun _ hw =>
      .past (hx.mono fun _ hx => hx.mono (Nat.succ_le_succ hw.depth)) hk
  | literal hf hx _ ih =>
    obtain ⟨_, hts⟩ := List.forall_mem_cons.mp hts
    exact (ih hts).imp fun _ hw hs => .literal hf (hx.mono hw.lengths) hs
  | value hf hx _ ih =>
    obtain ⟨ht, hts⟩ := List.forall_mem_cons.mp hts
    exact ((hx.rests (ht _ _ hf)).and (ih hts)).imp fun _ _ h => .value hf h.1 h.2
  | absent hf _ ih =>
    obtain ⟨_, hts⟩ := List.forall_mem_cons.mp hts
    exact (ih hts).imp fun _ _ hs => .absent hf hs

theorem EntryAt.rests {key value : TypeExpr} (hkey : key ∈ ts) (hvalue : value ∈ ts)
    {e : Bytes × Value × Value} {x : Bytes} (h : EntryAt r key value e x) :
    r.Rests ts fun r' => EntryAt r' key value e x := by
  obtain ⟨u, rfl, hk, hv⟩ := h
  refine ((Reading.Rests.part hkey hk).and (.part hvalue hv)).imp fun _ _ h => ?_
  exact ⟨u, rfl, h.1, h.2⟩

theorem KeyedStep.rests {fields : List Field} (hts : ∀ f ∈ fields, ∀ type presence,
    f.body = .value type presence → type ∈ ts) {found found' : Found} {x : Bytes}
    (h : KeyedStep s r fields found x found') :
    r.Rests ts fun r' => KeyedStep s r' fields found x found' := by
  cases h with
  | unknown hk hf he hv =>
    exact .of fun _ hw => .unknown (hk.mono hw) hf he (hv.mono (Nat.succ_le_succ hw.depth))
  | literal hk hf hnew hb hv =>
    exact .of fun _ hw => .literal (hk.mono hw) hf hnew hb (hv.mono hw.lengths)
  | value hk hf hnew hb hv =>
    have ht := hts _ (List.mem_of_find?_eq_some hf) _ _ hb
    exact (Reading.Rests.part ht hv).imp fun _ hw hv => .value (hk.mono hw) hf hnew hb hv

/-! ## 4. Collections -/

theorem Shape.ArrayHolds.rests {content : Content Value} {n : Nat} {u : Bytes}
    (h : s.ArrayHolds r content n u) :
    r.Rests s.partTypes fun r' => s.ArrayHolds r' content n u := by
  cases h with
  | items hl hv =>
    rename_i item vs
    have hrow := Row.rests (P := fun r' => r'.PartAt item) hv fun _ _ hv =>
      .part (Shape.item_mem hl) hv
    exact hrow.imp fun _ _ hv => .items hl hv
  | fields hl hs =>
    have hlaid := hs.rests fun f hf type presence hb => Shape.field_mem hl hf hb
    exact hlaid.imp fun _ _ hs => .fields hl hs

theorem Shape.MapHolds.rests {content : Content Value} {n : Nat} {u : Bytes}
    (h : s.MapHolds r content n u) : r.Rests s.partTypes fun r' => s.MapHolds r' content n u := by
  cases h with
  | entries hl hes hkeys =>
    rename_i key value es
    obtain ⟨hkey, hvalue⟩ := Shape.entry_mem hl
    have hrow := Row.rests (P := fun r' => EntryAt r' key value) hes fun _ _ he =>
      he.rests hkey hvalue
    exact hrow.imp fun _ _ hes => .entries hl hes hkeys
  | fields hl hs hc =>
    rename_i fields found
    have hsteps := Steps.rests (P := fun r' => KeyedStep s r' fields) hs fun _ _ _ hx =>
      hx.rests fun f hf type presence hb => Shape.field_mem hl hf hb
    exact hsteps.imp fun _ _ hs => .fields hl hs hc

theorem Shape.ArrayAt.rests {p : Parts} {u : Bytes} (h : s.ArrayAt r p u) :
    r.Rests s.partTypes fun r' => s.ArrayAt r' p u := by
  obtain ⟨e, front, body, content, n, inner, hu, ho, hb, hholds, hp⟩ := Shape.arrayAt_iff.mp h
  exact hholds.rests.imp fun _ hw hholds => Shape.arrayAt_iff.mpr
    ⟨e, front, body, content, n, inner, hu, ho.mono hw.lengths, hb, hholds, hp⟩

theorem Shape.MapAt.rests {p : Parts} {u : Bytes} (h : s.MapAt r p u) :
    r.Rests s.partTypes fun r' => s.MapAt r' p u := by
  obtain ⟨e, front, body, content, n, inner, hu, ho, hb, hholds, hp⟩ := Shape.mapAt_iff.mp h
  exact hholds.rests.imp fun _ hw hholds => Shape.mapAt_iff.mpr
    ⟨e, front, body, content, n, inner, hu, ho.mono hw.lengths, hb, hholds, hp⟩

/-! ## 5. Items -/

theorem Shape.KindAt.rests (hk : s.kind ≠ .union) {p : Parts} {u : Bytes} (h : s.KindAt r p u) :
    r.Rests s.partTypes fun r' => s.KindAt r' p u := by
  cases h with
  | scalar hk h => exact .of fun _ hw => .scalar hk (h.mono hw.lengths)
  | list hk h => exact h.rests.imp fun _ _ h => .list hk h
  | map hk h => exact h.rests.imp fun _ _ h => .map hk h
  | constructor hk h =>
    cases h with
    | mk hi hc ha => exact ha.rests.imp fun _ _ ha => .constructor hk (.mk hi hc ha)
  | union hk' _ => exact absurd hk' hk

theorem Shape.ItemAt.rests (hk : s.kind ≠ .union) {p : Parts} {u : Bytes} (h : s.ItemAt r p u) :
    r.Rests s.partTypes fun r' => s.ItemAt r' p u := by
  cases h with
  | untagged ht h => exact (h.rests hk).imp fun _ _ h => .untagged ht h
  | absent ht hh hm h => exact (h.rests hk).imp fun _ _ h => .absent ht hh hm h
  | tagged ht hh hm ha h => exact (h.rests hk).imp fun _ _ h => .tagged ht hh hm ha h

/-- **An item of any kind but a union rests on its parts.** -/
theorem Shape.KeptAt.rests (hk : s.kind ≠ .union) {p : Parts} {u : Bytes} (h : s.KeptAt r p u) :
    r.Rests s.partTypes fun r' => s.KeptAt r' p u := by
  cases h with
  | kept hp h => exact (h.rests hk).imp fun _ _ h => .kept hp h
  | dropped hp h => exact (h.rests hk).imp fun _ _ h => .dropped hp h

end CborSchema
