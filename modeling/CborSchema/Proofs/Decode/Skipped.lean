import CborSchema.Proofs.Decode.Inside
import CborSchema.Proofs.Raw.Spans

/-!
# How deep skipped items nest

The values that are read stand at most as deep as a run allows. What is passed over in one of them
stands one level below it, and may nest down to one level more.

* `Codec.ConvertsAt` -- what is read on the way to a value, and how deep it stands;
* `ConvertsAt.reads` -- **each value there is read with the nesting that its depth leaves**;
* `ConvertsAt.skipped` -- so what it passes over nests one level further than a value could;
* `Item.within_iff` -- an item nests so many levels just where fewer suffice to skip it;
* `Catalog.skipped_items_nest_one_deeper` -- **the exact bound, and which items keep to the limit
  itself.**
-/

namespace CborSchema

open Decoder

/-! ## 1. Depths -/

/-- What is converted while a type is read off bytes: where it stands, and how deep. The value
    itself stands at depth one, its parts one deeper, and so on; of a union only what does read its
    item. -/
inductive Codec.ConvertsAt (c : Codec) (o : DecodeOptions) (t : TypeExpr) (u : Bytes) :
    Nat → TypeExpr → Bytes → Prop where
  | root {v : Value} (h : (c.read o o.maxDepth t).Reads u v) : ConvertsAt c o t u 1 t u
  | inside {k : Nat} {outer inner : TypeExpr} {s : Shape} {x y : Bytes} {z : Value}
      (h : ConvertsAt c o t u k outer x) (hs : c.resolve outer = .ok s) (hx : s.Converts x inner y)
      (hz : (c.read o (o.maxDepth - k) inner).Reads y z) : ConvertsAt c o t u (k + 1) inner y

namespace Codec.ConvertsAt

variable {c : Codec} {o : DecodeOptions} {t inner : TypeExpr} {u x y : Bytes} {k : Nat} {s : Shape}

/-- **A value at some depth is read with the nesting that is left there.** -/
theorem reads (h : c.ConvertsAt o t u k inner x) :
    ∃ left v, o.maxDepth + 1 = k + (left + 1) ∧ (c.read o (left + 1) inner).Reads x v := by
  cases h with
  | root h =>
    obtain ⟨left, hleft, _⟩ := Codec.exists_readAt h
    exact ⟨left, _, by omega, hleft ▸ h⟩
  | inside _ _ _ hz =>
    obtain ⟨left, hleft, _⟩ := Codec.exists_readAt hz
    exact ⟨left, _, by omega, hleft ▸ hz⟩

/-- **What a value passes over nests one level further than a part of it could.** -/
theorem skipped (h : c.ConvertsAt o t u k inner x) (hs : c.resolve inner = .ok s)
    (hc : s.check inner = .ok ()) (hy : s.PassesOver x y) :
    ∃ left, k + left = o.maxDepth ∧ Item (left + 1) y := by
  obtain ⟨left, v, hleft, hread⟩ := h.reads
  obtain ⟨parts, hkept, -⟩ := (Codec.readAt_of_reads (c.sound o left) hread).keptAt hs
  exact ⟨left, by omega, hkept.passesOver hc hy⟩

end Codec.ConvertsAt

/-- **An item nests so many levels just where fewer suffice to skip it.** The skipper does not count
    the item that it starts with. -/
theorem Item.within_iff {levels : Nat} {u : Bytes} :
    Item levels u ↔ ∃ fewer, fewer < levels ∧ (Scan.skip fewer).Reads u () := by
  constructor
  · intro h
    cases levels with
    | zero => exact absurd h id
    | succ levels => exact ⟨levels, Nat.lt_succ_self levels, Scan.skip_reads h⟩
  · rintro ⟨fewer, hfewer, hread⟩
    obtain ⟨v, hv, -, hitem⟩ := Scan.skip_yields fewer u () [] hread.alone
    rw [List.append_nil] at hv
    exact hv ▸ hitem.mono hfewer

/-! ## 2. The bound is attained -/

section nested

/-- An item in so many arrays of one element each. -/
def inArrays (k : Nat) (u : Bytes) : Bytes := List.replicate k 0x81 ++ u

@[simp] theorem inArrays_zero (u : Bytes) : inArrays 0 u = u := rfl

theorem inArrays_succ (k : Nat) (u : Bytes) : inArrays (k + 1) u = [0x81] ++ inArrays k u := rfl

theorem singleton_head : Head.Spelled ⟨.array, 1, some 1⟩ [0x81] :=
  Head.Spelled.short (i := 0x81) (by decide)

theorem Item.in_array {l : Nat} {x : Bytes} : Item (l + 1) ([0x81] ++ x) ↔ Item l x := by
  constructor
  · intro h
    generalize hu : ([0x81] : Bytes) ++ x = u at h
    cases h with
    | plain hh _ hm =>
      obtain ⟨rfl, -, -⟩ := singleton_head.cancel hh (hu.trans (List.append_nil _).symm)
      simp at hm
    | string hh hm _ =>
      obtain ⟨rfl, -, -⟩ := singleton_head.cancel hh hu
      simp at hm
    | counted hh hw hn hs =>
      obtain ⟨rfl, -, rfl⟩ := singleton_head.cancel hh hu
      cases hw
      cases hn
      cases hs with
      | cons hx hnil =>
        rwa [hnil.eq_nil, List.append_nil]
    | opened hh _ hn _ =>
      obtain ⟨rfl, -, -⟩ := singleton_head.cancel hh hu
      cases hn
    | tagged hh hm _ =>
      obtain ⟨rfl, -, -⟩ := singleton_head.cancel hh hu
      cases hm
  · intro h
    exact ItemOf.counted (w := 1) (n := 1) singleton_head rfl rfl (.single h)

/-- An integer in arrays nests one level for each of them and one for itself, and no less. -/
theorem item_inArrays {k l : Nat} : Item l (inArrays k [0x00]) ↔ k + 1 ≤ l := by
  have hzero : ∀ l, Item (l + 1) [0x00] := fun l =>
    .plain (Head.Spelled.short (i := 0x00) (by decide)) (by simp) (.inl rfl)
  induction k generalizing l with
  | zero =>
    cases l with
    | zero => exact ⟨fun h => absurd h id, fun h => absurd h (by omega)⟩
    | succ l => exact ⟨fun _ => by omega, fun _ => hzero l⟩
  | succ k ih =>
    cases l with
    | zero => exact ⟨fun h => absurd h id, fun h => absurd h (by omega)⟩
    | succ l =>
      rw [inArrays_succ, Item.in_array]
      exact ih.trans Nat.add_le_add_iff_right.symm

/-- The catalog of one declared type: a list that starts with zero, whatever follows. -/
def openCatalog : Catalog where
  declared _ := { schema := (Schema.list.withLiteral (.int 0) (.int 0)).allowingExtras }
  printName _ := "open"

/-- The type that `openCatalog` declares. -/
def openList : TypeExpr := .named "open"

variable {o : DecodeOptions} {t : TypeExpr} {u : Bytes} {n : Nat}

/-- A list of one item is read where the item is, one level deeper. -/
theorem list_reads (ho : 1 ≤ o.maxCollectionLength.toNat) {v : Value}
    (h : (openCatalog.codec.reading o n).PartAt t v u) :
    (openCatalog.codec.reading o (n + 1)).PartAt (.list t) (.ofItems t [v]) ([0x81] ++ u) := by
  have hrow : Row ((openCatalog.codec.reading o n).PartAt t) [v] (u ++ []) := .cons h .nil
  rw [List.append_nil] at hrow
  have hitems : ∀ (s : Shape) (p : Parts), p.content = .items [v] →
      openCatalog.construct (.list t) s p = .ok (.ofItems t [v]) := by
    intro s p hp
    rw [Catalog.construct, items_eq_ok.mpr ⟨hp, by simpa using h.type⟩]
    rfl
  have hread : (openCatalog.codec.read o (n + 1) (.list t)).Reads ([0x81] ++ u) (.ofItems t [v]) :=
    Codec.read_reads (.mk rfl (.dropped rfl (.untagged rfl (.list rfl
      (.items rfl (.counted (n := 1) singleton_head rfl rfl rfl ho) .counted hrow))))
        (hitems _ _ rfl))
  exact ⟨hread, (Item.in_array.mpr h.item).isItem, rfl⟩

/-- The open list is read whatever item follows, as deep as that may nest. -/
theorem openList_reads (ho : 2 ≤ o.maxCollectionLength.toNat) (h : Item (n + 1) u) :
    ∃ v, (openCatalog.codec.reading o (n + 1)).PartAt openList v ([0x82] ++ ([0x00] ++ u)) := by
  have hpair : Head.Spelled ⟨.array, 2, some 2⟩ [0x82] := Head.Spelled.short (i := 0x82) (by decide)
  have hzero : Head.Spelled ⟨.unsigned, 0, some 0⟩ [0x00] :=
    Head.Spelled.short (i := 0x00) (by decide)
  have hlit : LiteralAt "open" o.maxStringLength (.int 0) ([0x00] ++ []) :=
    .mk hzero (.int rfl rfl)
  have hrow : InRow (Item (n + 1)) 1 (u ++ []) := .cons h .nil
  have hread := Codec.read_reads (c := openCatalog.codec) (o := o) (t := openList)
    (.mk rfl (.dropped rfl (.untagged rfl (.list rfl (Shape.arrayAt_iff.mpr ⟨.counted 2, [0x82],
      [0x00] ++ (u ++ []), .fields [], 2, _, rfl, .counted (n := 2) hpair rfl rfl rfl ho, .counted,
      .fields rfl (.literal rfl hlit (.past hrow (.inr rfl))), rfl⟩)))) rfl)
  rw [List.append_nil] at hread
  exact ⟨_, hread, (ItemOf.counted (w := 1) (n := 2) hpair rfl rfl
    (.cons hlit.isItem (.single h.isItem))).isItem, rfl⟩

/-- The item behind its first element is passed over. -/
theorem openList_passesOver (hu : IsItem u) :
    ∃ s, openCatalog.resolve openList = .ok s ∧ s.PassesOver ([0x82] ++ ([0x00] ++ u)) u := by
  have hzero : IsItem [0x00] := ((item_inArrays (k := 0)).mpr (Nat.le_refl _)).isItem
  have hpair : Gathers .array [[0x00], u] ([0x82] ++ ([0x00] ++ (u ++ []))) :=
    .mk (w := 1) (k := 2) (Head.Spelled.short (i := 0x82) (by decide)) rfl rfl rfl .counted
      (by simpa using ⟨hzero, hu⟩)
  rw [List.append_nil] at hpair
  exact ⟨_, rfl, .extra (List.nil_append _).symm (.bare nofun)
    (.element rfl hpair (j := 1) rfl (by decide))⟩

theorem lists_read (ho : 1 ≤ o.maxCollectionLength.toNat) {v : Value}
    (h : (openCatalog.codec.reading o n).PartAt t v u) (j : Nat) :
    ∃ w, (openCatalog.codec.reading o (n + j)).PartAt (TypeExpr.list^[j] t) w (inArrays j u) := by
  induction j with
  | zero => exact ⟨v, h⟩
  | succ j ih =>
    obtain ⟨w, hw⟩ := ih
    rw [Function.iterate_succ_apply', inArrays_succ]
    exact ⟨_, list_reads ho hw⟩

/-- Below lists of one item each that item is converted at its depth. -/
theorem lists_convert (ho : 1 ≤ o.maxCollectionLength.toNat) {v : Value}
    (h : (openCatalog.codec.reading o n).PartAt t v u) {i j : Nat}
    (hdepth : o.maxDepth = n + (i + j)) :
    openCatalog.codec.ConvertsAt o (TypeExpr.list^[i + j] t) (inArrays (i + j) u) (i + 1)
      (TypeExpr.list^[j] t) (inArrays j u) := by
  induction i generalizing j with
  | zero =>
    rw [Nat.zero_add] at hdepth ⊢
    obtain ⟨w, hw⟩ := lists_read ho h j
    exact .root (hdepth ▸ hw.reads)
  | succ i ih =>
    obtain ⟨w, hw⟩ := lists_read ho h j
    have houter := ih (j := j + 1) (by omega)
    rw [show i + (j + 1) = i + 1 + j by omega, Function.iterate_succ_apply',
      inArrays_succ] at houter
    have hgathers : Gathers .array [inArrays j u] ([0x81] ++ (inArrays j u ++ [])) :=
      .mk (w := 1) (k := 1) singleton_head rfl rfl rfl .counted (by simpa using hw.item)
    rw [List.append_nil] at hgathers
    have hpart : ∃ s, openCatalog.resolve (.list (TypeExpr.list^[j] t)) = .ok s ∧
        s.Converts ([0x81] ++ inArrays j u) (TypeExpr.list^[j] t) (inArrays j u) :=
      ⟨_, rfl, .part (List.nil_append _).symm (.bare nofun)
        (.item rfl hgathers List.mem_cons_self)⟩
    obtain ⟨s, hs, hpart⟩ := hpart
    refine .inside houter hs hpart (z := w) ?_
    rw [show o.maxDepth - (i + 1) = n + j by omega]
    exact hw.reads

/-- **At every depth there is an item that is passed over and nests as deep as the bound says.** -/
theorem openList_skips (ho : 2 ≤ o.maxCollectionLength.toNat) {k : Nat} (hk : 1 ≤ k)
    (hdepth : k ≤ o.maxDepth) :
    ∃ t bytes v x y s, (openCatalog.codec.decode t bytes o).result = .ok v ∧
      openCatalog.codec.ConvertsAt o t bytes k openList x ∧ openCatalog.resolve openList = .ok s ∧
      s.PassesOver x y ∧ ∀ levels, Item levels y ↔ o.maxDepth + 1 ≤ k + levels := by
  obtain ⟨i, rfl⟩ := Nat.exists_eq_add_of_le' hk
  obtain ⟨n, hn⟩ := Nat.exists_eq_add_of_le' hdepth
  have hextra : Item (n + 1) (inArrays n [0x00]) := item_inArrays.mpr (Nat.le_refl _)
  obtain ⟨v, hv⟩ := openList_reads (o := o) ho hextra
  have hchain := lists_convert (Nat.le_of_succ_le ho) hv (i := i) (j := 0) (by omega)
  obtain ⟨w, hw⟩ := lists_read (Nat.le_of_succ_le ho) hv i
  have hdecode := Codec.decode_eq_ok.mpr ⟨_, [], (List.append_nil _).symm, .inr rfl,
    (show o.maxDepth = n + 1 + i by omega) ▸ hw.reads⟩
  obtain ⟨s, hs, hpasses⟩ := openList_passesOver hextra.isItem
  refine ⟨_, _, _, _, _, s, hdecode, hchain, hs, hpasses, ?_⟩
  intro levels
  rw [item_inArrays, hn]
  omega

end nested

/-! ## 3. The bound -/

/-- **What is passed over nests one level deeper than what is converted.** A value that is converted
    at some depth leaves an item that it passes over to nest one level more than its parts have
    left, and at every depth of every limit there is an item that does. The item keeps to the limit,
    as a part in its place would have to, exactly where fewer levels than are left suffice to skip
    it. -/
theorem Catalog.skipped_items_nest_one_deeper (o : DecodeOptions) :
    (∀ (c : Catalog) (t : TypeExpr) (bytes : Bytes) (v : Value),
      (c.codec.decode t bytes o).result = .ok v → ∃ used, used <+: bytes ∧
        c.codec.ConvertsAt o t used 1 t used ∧
        ∀ k inner x s y, c.codec.ConvertsAt o t used k inner x → c.resolve inner = .ok s →
          s.PassesOver x y → ∃ left, k + left = o.maxDepth ∧ Item (left + 1) y ∧
            (Item left y ↔ ∃ fewer, fewer < left ∧ (Scan.skip fewer).Reads y ())) ∧
    ∀ k, 2 ≤ o.maxCollectionLength.toNat → 1 ≤ k → k ≤ o.maxDepth →
      ∃ (c : Catalog) (t inner : TypeExpr) (bytes x y : Bytes) (v : Value) (s : Shape),
        (c.codec.decode t bytes o).result = .ok v ∧ c.codec.ConvertsAt o t bytes k inner x ∧
        c.resolve inner = .ok s ∧ s.PassesOver x y ∧
        ∀ levels, Item levels y ↔ o.maxDepth + 1 ≤ k + levels := by
  refine ⟨fun c t bytes v h => ?_, fun k ho hk hdepth => ?_⟩
  · obtain ⟨used, rest, rfl, _, hread⟩ := Codec.decode_eq_ok.mp h
    refine ⟨used, ⟨rest, rfl⟩, .root hread, fun k inner x s y hat hs hy => ?_⟩
    obtain ⟨left, hleft, hitem⟩ := hat.skipped hs (resolve_check hs).1 hy
    exact ⟨left, hleft, hitem, Item.within_iff⟩
  · obtain ⟨t, bytes, v, x, y, s, h⟩ := openList_skips ho hk hdepth
    exact ⟨openCatalog, t, openList, bytes, x, y, v, s, h⟩

/-- Three levels are allowed, which leaves two below the list: the array that it passes over nests
    two deep, and so keeps to the limit. -/
theorem Catalog.skipped_array_keeps_the_bound :
    let o : DecodeOptions := { maxDepth := 3 }
    let bytes : Bytes := [0x82, 0x00, 0x81, 0x00]
    ∃ s left, openCatalog.resolve openList = .ok s ∧ s.PassesOver bytes [0x81, 0x00] ∧
      1 + left = o.maxDepth ∧ Item left [0x81, 0x00] := by
  intro o bytes
  have hdecode : (openCatalog.codec.decode openList bytes o).result =
      .ok (.node openList (.fields []) {}) := by cbv
  obtain ⟨used, ⟨rest, hused⟩, hroot, hskips⟩ :=
    (Catalog.skipped_items_nest_one_deeper o).1 openCatalog openList bytes _ hdecode
  have hextra : Item 2 [0x81, 0x00] := (item_inArrays (k := 1)).mpr (Nat.le_refl _)
  obtain ⟨s, hs, hpasses⟩ := openList_passesOver hextra.isItem
  -- what was used up is one item, and so are all the bytes
  obtain ⟨v, hv⟩ := openList_reads (o := o) (n := 1) (by decide) hextra
  obtain ⟨below, w, _, hread⟩ := hroot.reads
  have hpart := ((openCatalog.codec.read_partAt o (below + 1) openList).whole hread.whole).2
  obtain rfl : used = bytes :=
    (hpart.item.cancel hv.item (hused.trans (List.append_nil bytes).symm)).1
  obtain ⟨left, hleft, _, hkeeps⟩ := hskips 1 openList _ s _ hroot hs hpasses
  obtain rfl : left = 2 := Nat.add_left_cancel hleft
  exact ⟨s, 2, hs, hpasses, hleft, hkeeps.mpr ⟨1, Nat.lt_succ_self 1, Scan.skip_reads hextra⟩⟩

/-- Two levels are allowed. The list stands at depth one and passes over an array at depth two,
    whose integer stands at depth three. The same array is refused where it is converted at that
    depth. -/
theorem Catalog.skipped_integer_beyond_the_limit :
    let o : DecodeOptions := { maxDepth := 2 }
    let bytes : Bytes := [0x82, 0x00, 0x81, 0x00]
    (openCatalog.codec.decode openList bytes o).result = .ok (.node openList (.fields []) {}) ∧
      openCatalog.codec.ConvertsAt o openList bytes 1 openList bytes ∧
      (∃ s, openCatalog.resolve openList = .ok s ∧ s.PassesOver bytes [0x81, 0x00]) ∧
      (∀ levels, Item levels [0x81, 0x00] → o.maxDepth < 1 + levels) ∧
      (openCatalog.codec.decode (.list (.list .uint64)) [0x81, 0x81, 0x00] o).result =
        .error (.wire (.tooDeep 2)) := by
  intro o bytes
  have hdecode : (openCatalog.codec.decode openList bytes o).result =
      .ok (.node openList (.fields []) {}) := by cbv
  have hextra : Item 2 [0x81, 0x00] := (item_inArrays (k := 1)).mpr (Nat.le_refl _)
  obtain ⟨v, hv⟩ := openList_reads (o := o) (n := 1) (by decide) hextra
  refine ⟨hdecode, .root (v := v) hv.reads, openList_passesOver hextra.isItem,
    fun levels hlevels => ?_, by cbv⟩
  have hle := (item_inArrays (k := 1)).mp hlevels
  show 2 < 1 + levels
  omega

end CborSchema
