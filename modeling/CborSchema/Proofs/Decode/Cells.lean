import CborSchema.Decode.Reading
import CborSchema.Proofs.Decode.Runs

/-!
# The parts of an item in its bytes

* `IsItem bytes` -- the bytes are one item, however deep it nests;
* `Reading.PartAt`, `Reading.Sound` -- a part is read off exactly these bytes, which are one item;
* `Cell` -- a stretch of bytes, and the part that was read off it where one was; the cells of an
  item in a row are its bytes (`Cells.bytes`), and what was read off them its parts (`Cells.parts`);
* `Cut`, `Reading.Cut` -- bytes cut into such cells, and those of an item that was read;
* `Row` -- values in a row, each with its bytes.
-/

namespace CborSchema

/-! ## 1. Items of any nesting -/

/-- One item, however deep it nests. -/
def IsItem (bytes : Bytes) : Prop := Item bytes.length bytes

theorem Item.isItem {l : Nat} {bytes : Bytes} (h : Item l bytes) : IsItem bytes :=
  h.levels_le_length

namespace IsItem

theorem startsItem {bytes : Bytes} (h : IsItem bytes) : Scan.StartsItem bytes := Item.startsItem h

theorem ne_nil {bytes : Bytes} (h : IsItem bytes) : bytes ≠ [] := Item.ne_nil h

theorem startsHead {bytes : Bytes} (h : IsItem bytes) : ∃ head, Decoder.StartsHead head bytes := by
  obtain ⟨P, hP⟩ := Item.of_succ h
  obtain ⟨head, front, rest, rfl, hh, _⟩ := hP.front
  exact ⟨head, front, rest, rfl, hh⟩

/-- **An item in front of others is found by skipping alone**, so no item is the start of
    another. -/
theorem eq_of_append {x y u v : Bytes} (hx : IsItem x) (hy : IsItem y) (h : x ++ u = y ++ v) :
    x = y := by
  have hu : Scan.skip (max x.length y.length) (x ++ u) = (.ok (), u) :=
    Scan.skip_reads_of_length hx (Nat.le_max_left _ _) u
  have hv : Scan.skip (max x.length y.length) (y ++ v) = (.ok (), v) :=
    Scan.skip_reads_of_length hy (Nat.le_max_right _ _) v
  rw [h, hv] at hu
  obtain rfl : v = u := congrArg Prod.snd hu
  exact List.append_cancel_right h

end IsItem

/-- **An item of items is an item.** -/
theorem ItemOf.isItem {bytes : Bytes} (h : ItemOf IsItem bytes) : IsItem bytes := by
  have bound : ∀ {k : Nat} {inner : Bytes}, InRow IsItem k inner →
      InRow (Item inner.length) k inner := fun hs =>
    (hs.bounded (Nat.le_refl _)).mono fun x hx => hx.1.mono hx.2
  cases h with
  | plain hh ha hm => exact Item.isItem (l := 1) (.plain hh ha hm)
  | string hh hm hp => exact Item.isItem (l := 1) (.string hh hm hp)
  | counted hh hm hn hs => exact Item.isItem (l := _ + 1) (.counted hh hm hn (bound hs))
  | opened hh hm hn hs => exact Item.isItem (l := _ + 1) (.opened hh hm hn (bound hs))
  | tagged hh hm hi => exact Item.isItem (l := _ + 1) (.tagged hh hm hi)

/-! ## 2. Parts -/

namespace Reading

/-- A part of a type is read off exactly these bytes, which are one item. -/
structure PartAt (r : Reading) (t : TypeExpr) (v : Value) (u : Bytes) : Prop where
  reads : (r.part t).Reads u v
  item : IsItem u
  type : v.type = t

/-- Whatever part is read, it is read off one item. -/
def Sound (r : Reading) : Prop := ∀ t, (r.part t).Yields fun v u => IsItem u ∧ v.type = t

theorem Sound.partAt {r : Reading} (hr : r.Sound) (t : TypeExpr) :
    (r.part t).Yields (r.PartAt t) := (hr t).mono fun _ _ hR h => ⟨hR, h.1, h.2⟩

end Reading

/-- The values directly in a content, in order. -/
def Content.parts {α : Type} : Content α → List α
  | .scalar _ => []
  | .fields slots => slots.filterMap id
  | .items vs => vs
  | .entries es => es.flatMap fun e => [e.1, e.2]
  | .variant v => [v]

/-! ## 3. Cells -/

/-- A stretch of bytes, and the part that lies there where one does. -/
structure Cell (α : Type) where
  value : Option α
  bytes : Bytes

namespace Cells

variable {α β : Type}

/-- The bytes of cells in a row. -/
def bytes (cells : List (Cell α)) : Bytes := cells.flatMap Cell.bytes

/-- The parts that lie in cells in a row. -/
def parts (cells : List (Cell α)) : List α := cells.filterMap Cell.value

@[simp] theorem bytes_nil : bytes ([] : List (Cell α)) = [] := rfl

@[simp] theorem bytes_cons (c : Cell α) (cells : List (Cell α)) :
    bytes (c :: cells) = c.bytes ++ bytes cells := rfl

@[simp] theorem bytes_append (cells cells' : List (Cell α)) :
    bytes (cells ++ cells') = bytes cells ++ bytes cells' := by simp [bytes]

@[simp] theorem parts_nil : parts ([] : List (Cell α)) = [] := rfl

@[simp] theorem parts_own (u : Bytes) (cells : List (Cell α)) :
    parts (⟨none, u⟩ :: cells) = parts cells := rfl

@[simp] theorem parts_part (a : α) (u : Bytes) (cells : List (Cell α)) :
    parts (⟨some a, u⟩ :: cells) = a :: parts cells := rfl

@[simp] theorem parts_append (cells cells' : List (Cell α)) :
    parts (cells ++ cells') = parts cells ++ parts cells' := by simp [parts]

/-- Cells that are items. -/
theorem inRow {cells : List (Cell α)} (h : ∀ c ∈ cells, IsItem c.bytes) :
    InRow IsItem cells.length (bytes cells) := by
  induction cells with
  | nil => exact .nil
  | cons c cells ih =>
    exact .cons (h c List.mem_cons_self) (ih fun d hd => h d (List.mem_cons_of_mem c hd))

end Cells

/-- What lies in a cell lies there in the sense of `P`. -/
def Cell.Fits {α : Type} (P : α → Bytes → Prop) (c : Cell α) : Prop :=
  ∀ a, c.value = some a → P a c.bytes

theorem Cell.Fits.own {α : Type} (P : α → Bytes → Prop) (u : Bytes) : Cell.Fits P ⟨none, u⟩ := by
  intro a ha
  cases ha

theorem Cell.Fits.part {α : Type} {P : α → Bytes → Prop} {a : α} {u : Bytes} (h : P a u) :
    Cell.Fits P ⟨some a, u⟩ := by
  rintro _ ⟨⟩
  exact h

/-- Bytes cut into cells in which the given parts lie, in some order. -/
def Cut {α : Type} (P : α → Bytes → Prop) (parts : List α) (u : Bytes) : Prop :=
  ∃ cells : List (Cell α), Cells.bytes cells = u ∧ (∀ c ∈ cells, c.Fits P) ∧
    (Cells.parts cells).Perm parts

namespace Cut

variable {α : Type} {P : α → Bytes → Prop} {parts : List α} {u : Bytes}

/-- Bytes without parts. -/
theorem own (u : Bytes) : Cut P [] u :=
  ⟨[⟨none, u⟩], by simp, by simpa using Cell.Fits.own P u, by simp⟩

theorem part {a : α} (h : P a u) : Cut P [a] u :=
  ⟨[⟨some a, u⟩], by simp, by simpa using Cell.Fits.part h, by simp⟩

theorem append {parts' : List α} {v : Bytes} (h : Cut P parts u) (h' : Cut P parts' v) :
    Cut P (parts ++ parts') (u ++ v) := by
  obtain ⟨cells, rfl, hf, hp⟩ := h
  obtain ⟨cells', rfl, hf', hp'⟩ := h'
  refine ⟨cells ++ cells', by simp, ?_, by simpa using hp.append hp'⟩
  intro c hc
  rcases List.mem_append.mp hc with hc | hc
  · exact hf c hc
  · exact hf' c hc

/-- Bytes of the value's own in front. -/
theorem front (w : Bytes) (h : Cut P parts u) : Cut P parts (w ++ u) := (own w).append h

/-- Bytes of the value's own behind. -/
theorem back (w : Bytes) (h : Cut P parts u) : Cut P parts (u ++ w) := by
  simpa using h.append (own w)

theorem perm {parts' : List α} (h : Cut P parts u) (hp : parts.Perm parts') : Cut P parts' u := by
  obtain ⟨cells, hb, hf, hc⟩ := h
  exact ⟨cells, hb, hf, hc.trans hp⟩

theorem mono {Q : α → Bytes → Prop} (h : Cut P parts u) (hPQ : ∀ a u, P a u → Q a u) :
    Cut Q parts u := by
  obtain ⟨cells, hb, hf, hp⟩ := h
  exact ⟨cells, hb, fun c hc a ha => hPQ a _ (hf c hc a ha), hp⟩

/-- Bytes of a part that is not looked for are the value's own. -/
theorem tail {a : α} {as : List α} (h : Cut P (a :: as) u) : Cut P as u := by
  obtain ⟨cells, rfl, hf, hp⟩ := h
  have hmem : a ∈ Cells.parts cells := hp.mem_iff.mpr List.mem_cons_self
  obtain ⟨⟨value, x⟩, hcell, ha⟩ := List.mem_filterMap.mp hmem
  dsimp only at ha
  subst ha
  obtain ⟨before, behind, rfl⟩ := List.append_of_mem hcell
  refine ⟨before ++ ⟨none, x⟩ :: behind, by simp, fun c hc => ?_, ?_⟩
  · rcases List.mem_append.mp hc with hc | hc
    · exact hf c (List.mem_append_left _ hc)
    · rcases List.mem_cons.mp hc with rfl | hc
      · exact .own P x
      · exact hf c (List.mem_append_right _ (List.mem_cons_of_mem _ hc))
  · rw [Cells.parts_append, Cells.parts_part] at hp
    rw [Cells.parts_append, Cells.parts_own]
    exact (List.perm_middle.symm.trans hp).cons_inv

theorem left {as bs : List α} (h : Cut P (as ++ bs) u) : Cut P as u := by
  have h := h.perm List.perm_append_comm
  induction bs with
  | nil => exact h
  | cons b bs ih => exact ih (h.tail.perm List.perm_append_comm) h.tail

theorem singles {as : List α} (h : Cut P (as.flatMap fun a => [a]) u) : Cut P as u := by
  rwa [List.flatMap_singleton'] at h

/-- Each part has bytes of its own. -/
theorem exists_of_mem (h : Cut P parts u) {a : α} (ha : a ∈ parts) : ∃ x, P a x := by
  obtain ⟨cells, _, hf, hp⟩ := h
  obtain ⟨cell, hcell, hvalue⟩ := List.mem_filterMap.mp (hp.mem_iff.mpr ha)
  exact ⟨cell.bytes, hf cell hcell a hvalue⟩

end Cut

/-- Values in a row, each with its bytes. -/
inductive Row {α : Type} (P : α → Bytes → Prop) : List α → Bytes → Prop where
  | nil : Row P [] []
  | cons {a : α} {as : List α} {x bytes : Bytes} (hx : P a x) (hs : Row P as bytes) :
      Row P (a :: as) (x ++ bytes)

namespace Row

variable {α β : Type} {P : α → Bytes → Prop} {as : List α} {bytes : Bytes}

theorem mono {Q : α → Bytes → Prop} (h : Row P as bytes) (hPQ : ∀ a x, P a x → Q a x) :
    Row Q as bytes := by
  induction h with
  | nil => exact .nil
  | cons hx _ ih => exact .cons (hPQ _ _ hx) ih

/-- What lies in a row is a member. -/
theorem mem (h : Row P as bytes) : Row (fun a x => a ∈ as ∧ P a x) as bytes := by
  induction h with
  | nil => exact .nil
  | cons hx _ ih =>
    refine .cons ⟨List.mem_cons_self, hx⟩ (ih.mono fun a x h => ⟨?_, h.2⟩)
    exact List.mem_cons_of_mem _ h.1

theorem exists_of_mem (h : Row P as bytes) {a : α} (ha : a ∈ as) : ∃ x, P a x := by
  induction h with
  | nil => cases ha
  | cons hx _ ih =>
    rcases List.mem_cons.mp ha with rfl | ha
    · exact ⟨_, hx⟩
    · exact ih ha

theorem inRow {Q : Bytes → Prop} (hPQ : ∀ a x, P a x → Q x) (h : Row P as bytes) :
    InRow Q as.length bytes := by
  induction h with
  | nil => exact .nil
  | cons hx _ ih => exact .cons (hPQ _ _ hx) ih

/-- **What lies in a row lies in it member by member.** -/
theorem cut {Q : β → Bytes → Prop} {f : α → List β} (hPQ : ∀ a x, P a x → Cut Q (f a) x)
    (h : Row P as bytes) : Cut Q (as.flatMap f) bytes := by
  induction h with
  | nil => exact .own []
  | cons hx _ ih => exact (hPQ _ _ hx).append ih

/-- What holds of some bytes for each member holds in a row. -/
theorem exists_of_forall (h : ∀ a ∈ as, ∃ x, P a x) : ∃ bytes, Row P as bytes := by
  induction as with
  | nil => exact ⟨[], .nil⟩
  | cons a as ih =>
    obtain ⟨⟨x, hx⟩, hrest⟩ := List.forall_mem_cons.mp h
    obtain ⟨bytes, hbytes⟩ := ih hrest
    exact ⟨x ++ bytes, .cons hx hbytes⟩

end Row

/-- The bytes of an item cut into the bytes of its parts and its own. -/
abbrev Reading.Cut (r : Reading) (parts : List Value) (u : Bytes) : Prop :=
  CborSchema.Cut (fun v => r.PartAt v.type v) parts u

/-- What was read off a cell is a part there. -/
abbrev Reading.Fits (r : Reading) (c : Cell Value) : Prop := c.Fits fun v => r.PartAt v.type v

theorem Reading.PartAt.fits {r : Reading} {t : TypeExpr} {v : Value} {u : Bytes}
    (h : r.PartAt t v u) : r.Fits ⟨some v, u⟩ := by
  obtain rfl := h.type
  exact .part h

theorem Reading.PartAt.cut {r : Reading} {t : TypeExpr} {v : Value} {u : Bytes}
    (h : r.PartAt t v u) : r.Cut [v] u := by
  obtain rfl := h.type
  exact .part h

end CborSchema
