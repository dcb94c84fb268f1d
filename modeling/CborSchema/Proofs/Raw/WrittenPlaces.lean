import CborSchema.Proofs.Encode.Items
import CborSchema.Proofs.Raw.Spans
import CborSchema.Proofs.Roundtrip.Items

/-!
# Places in what is written

Each part of a value that is not replayed has its place in what is written.

* `Cells.exists_at` -- the part of a number in cells in a row;
* `Cells.Hold`, `Shape.LaysOut.hold` -- the cells of a content hold its parts, in order;
* `Row.partCells`, `Row.entryCells`, `Row.tupleCells`, `Row.keyedCells` -- what is written between
  the head of a collection and its end;
* `KindAs.writtenPlace` -- the place of a part by the kind of the shape; `place_of_written` -- of a
  part of a value.
-/

namespace CborSchema

variable {c : Catalog} {s : Shape} {w : Writing} {P : Value → Bytes → Prop}

/-! ## 1. Cells in order -/

/-- The part of a number has a cell, with as many parts in front of it. -/
theorem Cells.exists_at {α : Type} {cells : List (Cell α)} {i : Nat} {a : α}
    (h : (Cells.parts cells)[i]? = some a) : ∃ before x behind,
      cells = before ++ ⟨some a, x⟩ :: behind ∧ (Cells.parts before).length = i := by
  induction cells generalizing i with
  | nil => cases h
  | cons c cells ih =>
    obtain ⟨value, u⟩ := c
    cases value with
    | none =>
      obtain ⟨before, x, behind, rfl, hi⟩ := ih h
      exact ⟨⟨none, u⟩ :: before, x, behind, rfl, hi⟩
    | some b =>
      cases i with
      | zero =>
        cases h
        exact ⟨[], u, cells, rfl, rfl⟩
      | succ i =>
        obtain ⟨before, x, behind, rfl, rfl⟩ := ih h
        exact ⟨⟨some b, u⟩ :: before, x, behind, rfl, rfl⟩

/-- The cells hold these parts, in order. -/
structure Cells.Hold (P : Value → Bytes → Prop) (cells : List (Cell Value))
    (zs : List Value) : Prop where
  parts : Cells.parts cells = zs
  fits : ∀ cell ∈ cells, cell.Fits P

namespace Cells.Hold

variable {cells : List (Cell Value)} {zs : List Value}

theorem nil : Hold P [] [] := ⟨rfl, List.forall_mem_nil _⟩

theorem own (h : Hold P cells zs) (u : Bytes) : Hold P (⟨none, u⟩ :: cells) zs :=
  ⟨h.parts, List.forall_mem_cons.mpr ⟨.own P u, h.fits⟩⟩

theorem part (h : Hold P cells zs) {z : Value} {x : Bytes} (hx : P z x) :
    Hold P (⟨some z, x⟩ :: cells) (z :: zs) :=
  ⟨congrArg (z :: ·) h.parts, List.forall_mem_cons.mpr ⟨.part hx, h.fits⟩⟩

end Cells.Hold

theorem PartCells.hold {zs : List Value} {cells : List (Cell Value)} (h : PartCells P zs cells) :
    Cells.Hold P cells zs := by
  induction h with
  | nil => exact .nil
  | cons hx _ ih => exact ih.part hx

theorem TupleCells.hold {fields : List Field} {slots : List (Option Value)}
    {cells : List (Cell Value)} (h : TupleCells P fields slots cells) :
    Cells.Hold P cells (slots.filterMap id) := by
  induction h with
  | literal _ _ ih => exact ih.own _
  | part _ hx _ ih => exact ih.part hx
  | null _ _ ih => exact ih.own _
  | rest hf hs =>
    rename_i fs slots
    have hnone : slots.filterMap id = [] := List.filterMap_eq_nil_iff.mpr hs
    rw [hnone]
    exact .nil

theorem KeyedCells.hold {fields : List Field} {slots : List (Option Value)}
    {cells : List (Cell Value)} (h : KeyedCells P fields slots cells) :
    Cells.Hold P cells (slots.filterMap id) := by
  induction h with
  | nil => exact .nil
  | literal _ _ ih => exact (ih.own _).own _
  | part _ hx _ ih => exact (ih.part hx).own _
  | absent _ _ ih => exact ih

/-- **What is written for a content holds its parts, in order.** -/
theorem Shape.LaysOut.hold {content : Content Value} {cells : List (Cell Value)}
    (h : s.LaysOut P content cells) : Cells.Hold P cells content.parts := by
  cases h with
  | items _ h => exact h.hold
  | entries _ h => exact h.hold
  | tuple _ _ h => exact h.hold
  | keyed _ _ h => exact h.hold

/-! ## 2. Collections that are written -/

section collections

variable (hP : ∀ t z x, w.PartAs t z x → P z x)
include hP

theorem Row.partCells {item : TypeExpr} {vs : List Value} {inner : Bytes}
    (h : Row (w.PartAs item) vs inner) : ∃ cells, Cells.bytes cells = inner ∧
    PartCells P vs cells := by
  induction h with
  | nil => exact ⟨[], rfl, .nil⟩
  | cons hx _ ih =>
    obtain ⟨cells, rfl, hs⟩ := ih
    exact ⟨_, rfl, .cons (hP _ _ _ hx) hs⟩

theorem Row.entryCells {key value : TypeExpr} {es : List (Value × Value)} {inner : Bytes}
    (h : Row (EntryAs w key value) es inner) : ∃ cells, Cells.bytes cells = inner ∧
      PartCells P (es.flatMap fun e => [e.1, e.2]) cells := by
  induction h with
  | nil => exact ⟨[], rfl, .nil⟩
  | cons hx _ ih =>
    obtain ⟨k, u, rfl, hk, hu⟩ := hx
    obtain ⟨cells, rfl, hs⟩ := ih
    exact ⟨⟨some _, k⟩ :: ⟨some _, u⟩ :: cells, by simp,
      .cons (hP _ _ _ hk) (.cons (hP _ _ _ hu) hs)⟩

/-- **The elements of a tuple**, by induction on its fields. -/
theorem Row.tupleCells {fields : List Field} {slots : List (Option Value)}
    (hn : slots.length = fields.countP fun f => !f.isLiteral)
    {shown tail : List (Field × Option Value)} (he : alignFields fields slots = shown ++ tail)
    (htail : ∀ e ∈ tail, omitted e = true) {inner : Bytes} (h : Row (ElementAs w) shown inner) :
    ∃ cells, Cells.bytes cells = inner ∧ TupleCells P fields slots cells := by
  induction fields generalizing slots shown inner with
  | nil =>
    obtain rfl := List.eq_nil_of_length_eq_zero hn
    obtain ⟨rfl, rfl⟩ := List.append_eq_nil_iff.mp he.symm
    cases h
    exact ⟨[], rfl, .rest (List.forall_mem_nil _) (List.forall_mem_nil _)⟩
  | cons f fs ih =>
    cases h with
    | nil =>
      -- all fields that are left are omitted
      rw [List.nil_append] at he
      have homitted : ∀ e ∈ tail, e.2 = none ∧ e.1.presence = .optional := by
        intro e hmem
        simpa [omitted] using htail e hmem
      refine ⟨[], rfl, .rest (fun f' hf' => ?_) fun slot hslot => ?_⟩
      · rw [← alignFields_fields (f :: fs) slots, he] at hf'
        obtain ⟨e, hmem, rfl⟩ := List.mem_map.mp hf'
        exact (homitted e hmem).2
      · have hnone : slots.filterMap id = [] := by
          rw [← alignFields_slots hn, he]
          exact List.filterMap_eq_nil_iff.mpr fun e hmem => (homitted e hmem).1
        exact List.filterMap_eq_nil_iff.mp hnone slot hslot
    | cons hx hs =>
      unfold alignFields at he
      split at he
      · rename_i hf
        rw [List.countP_cons_of_neg (by simp [hf])] at hn
        obtain ⟨rfl, hrest⟩ := List.cons.inj he
        obtain ⟨cells, rfl, hcells⟩ := ih hn hrest hs
        cases hx with
        | literal hl => exact ⟨_, rfl, .literal hl hcells⟩
        | null hb => simp [Field.isLiteral, hb] at hf
      · rename_i hf
        rw [List.countP_cons_of_pos (by simp [hf])] at hn
        cases slots with
        | nil => cases hn
        | cons slot slots =>
          obtain ⟨rfl, hrest⟩ := List.cons.inj he
          obtain ⟨cells, rfl, hcells⟩ := ih (Nat.succ.inj hn) hrest hs
          cases hx with
          | literal hl => simp [Field.isLiteral, hl] at hf
          | value _ hv => exact ⟨_, rfl, .part (by simpa using hf) (hP _ _ _ hv) hcells⟩
          | null hb => exact ⟨_, rfl, .null (by rw [Field.presence, hb]) hcells⟩

/-- **The entries of a map with fields**, by induction on its fields. -/
theorem Row.keyedCells {fields : List Field} {slots : List (Option Value)}
    (hn : slots.length = fields.countP fun f => !f.isLiteral)
    (hp : ∀ e ∈ alignFields fields slots, isWritten e = true ∨ e.1.presence = .optional)
    {inner : Bytes} (h : Row (KeyedAs w) (alignFields fields slots) inner) :
    ∃ cells, Cells.bytes cells = inner ∧ KeyedCells P fields slots cells := by
  induction fields generalizing slots inner with
  | nil =>
    obtain rfl := List.eq_nil_of_length_eq_zero hn
    cases h
    exact ⟨[], rfl, .nil⟩
  | cons f fs ih =>
    unfold alignFields at h hp
    split at h
    · rename_i hf
      rw [if_pos hf] at hp
      rw [List.countP_cons_of_neg (by simp [hf])] at hn
      cases h with
      | cons hx hs =>
        obtain ⟨cells, rfl, hcells⟩ := ih hn (List.forall_mem_cons.mp hp).2 hs
        cases hx with
        | literal hl =>
          rename_i l
          exact ⟨⟨none, f.key.bytes⟩ :: ⟨none, l.bytes⟩ :: cells, by simp, .literal hl hcells⟩
        | absent hf' => simp [hf] at hf'
    · rename_i hf
      rw [if_neg hf] at hp
      rw [List.countP_cons_of_pos (by simp [hf])] at hn
      cases slots with
      | nil => cases hn
      | cons slot slots =>
        cases h with
        | cons hx hs =>
          obtain ⟨hfirst, hrest⟩ := List.forall_mem_cons.mp hp
          obtain ⟨cells, rfl, hcells⟩ := ih (Nat.succ.inj hn) hrest hs
          cases hx with
          | literal hl => simp [Field.isLiteral, hl] at hf
          | value _ hv =>
            rename_i z x _
            refine ⟨⟨none, f.key.bytes⟩ :: ⟨some z, x⟩ :: cells, by simp, ?_⟩
            exact .part (by simpa using hf) (hP _ _ _ hv) hcells
          | absent hf' =>
            refine ⟨cells, rfl, .absent (hfirst.resolve_left ?_) hcells⟩
            simp [isWritten, hf']

/-- **What is written for an array lies between its head and its end.** -/
theorem Shape.ArrayAs.laysOut {p : Pieces} {u : Bytes} (h : s.ArrayAs w p u) (hm : s.kind ≠ .map) :
    ∃ indefinite n cells, u = collectionBytes .array indefinite n (Cells.bytes cells) ∧
      s.LaysOut P p.content cells := by
  cases h with
  | items hl hc hv =>
    obtain ⟨cells, rfl, hcells⟩ := hv.partCells hP
    exact ⟨_, _, cells, rfl, hc ▸ .items hl hcells⟩
  | fields hl hc hn he =>
    rename_i fields slots inner
    obtain ⟨tail, hentries, htail⟩ := writtenFields_append (alignFields fields slots)
    obtain ⟨cells, rfl, hcells⟩ := he.tupleCells hP (hn.trans (arity_of_layout hl)) hentries htail
    exact ⟨_, _, cells, rfl, hc ▸ .tuple hm hl hcells⟩

theorem Shape.MapAs.laysOut {p : Pieces} {u : Bytes} (h : s.MapAs w p u) (hm : s.kind = .map) :
    ∃ indefinite n cells, u = collectionBytes .map indefinite n (Cells.bytes cells) ∧
      s.LaysOut P p.content cells := by
  cases h with
  | entries hl hc he =>
    obtain ⟨cells, rfl, hcells⟩ := he.entryCells hP
    exact ⟨_, _, cells, rfl, hc ▸ .entries hl hcells⟩
  | fields hl hc hn hp he =>
    obtain ⟨cells, rfl, hcells⟩ := he.keyedCells hP (hn.trans (arity_of_layout hl)) hp
    exact ⟨_, _, cells, rfl, hc ▸ .keyed hm hl hcells⟩

end collections

/-! ## 3. Values that are written -/

section places

variable {p : Pieces} {u : Bytes} {v z : Value} {i : Nat}

/-- **Each part of a collection stands behind the parts in front of it.** -/
theorem Shape.LaysOut.writtenPlace {m : Major} (hm : m = if s.kind = .map then .map else .array)
    (indefinite : Bool) (n : Nat) {cells : List (Cell Value)} (h : s.LaysOut P v.content cells)
    (hz : v.content.parts[i]? = some z) : ∃ pre x post,
      collectionBytes m indefinite n (Cells.bytes cells) = pre ++ (x ++ post) ∧
        s.WrittenPlace P v i pre x post ∧ P z x := by
  have hopen : m.hasOpenForm = true := by
    subst hm
    split <;> rfl
  obtain ⟨head, front, hh, hmajor, hframing, hu⟩ :=
    collectionBytes_frame hopen indefinite n (Cells.bytes cells)
  rw [← h.hold.parts] at hz
  obtain ⟨before, x, behind, rfl, rfl⟩ := Cells.exists_at hz
  refine ⟨_, x, _, ?_, .collection hh (hmajor.trans hm) (by rw [hframing]) h, ?_⟩
  · rw [hu]
    simp
  · exact h.hold.fits ⟨some z, x⟩ (by simp) z rfl

theorem Shape.ArrayAs.writtenPlace (hP : ∀ t z x, w.PartAs t z x → P z x) (h : s.ArrayAs w p u)
    (hm : s.kind ≠ .map) (hc : p.content = v.content) (hz : v.content.parts[i]? = some z) :
    ∃ pre x post, u = pre ++ (x ++ post) ∧ s.WrittenPlace P v i pre x post ∧ P z x := by
  obtain ⟨indefinite, n, cells, rfl, hcells⟩ := h.laysOut hP hm
  rw [hc] at hcells
  exact hcells.writtenPlace (if_neg hm).symm indefinite n hz

theorem Shape.MapAs.writtenPlace (hP : ∀ t z x, w.PartAs t z x → P z x) (h : s.MapAs w p u)
    (hm : s.kind = .map) (hc : p.content = v.content) (hz : v.content.parts[i]? = some z) :
    ∃ pre x post, u = pre ++ (x ++ post) ∧ s.WrittenPlace P v i pre x post ∧ P z x := by
  obtain ⟨indefinite, n, cells, rfl, hcells⟩ := h.laysOut hP hm
  rw [hc] at hcells
  exact hcells.writtenPlace (if_pos hm).symm indefinite n hz

/-- The tag in front of an item that is no constructor is its lead. -/
theorem Shape.tagBefore_lead (hk : s.kind ≠ .constructor) (style : Option ItemStyle) :
    ∃ tagged, s.Lead tagged (s.tagBefore style) := by
  rcases tagBefore_spelled s style with hnone | ⟨rule, h, ht, hh, hm, ha⟩
  · exact ⟨false, hnone ▸ .bare hk⟩
  · exact ⟨true, .tag hk ht hh hm (by rw [ha, Option.getD_some])⟩

/-- **Each part of an item stands behind its lead, in its place.** -/
theorem Shape.KindAs.writtenPlace (hP : ∀ t z x, w.PartAs t z x → P z x) {t : TypeExpr}
    (hs : s.check t = .ok ()) (h : s.KindAs w p u) (style : Option ItemStyle)
    (hc : p.content = v.content) (hz : v.content.parts[i]? = some z) : ∃ tagged lead pre x post,
      s.tagBefore style ++ u = lead ++ (pre ++ (x ++ post)) ∧ s.Lead tagged lead ∧
        s.WrittenPlace P v i pre x post ∧ P z x := by
  cases h with
  | scalar _ hc' _ =>
    rw [← hc, hc'] at hz
    cases hz
  | list hk h =>
    obtain ⟨tagged, hlead⟩ := s.tagBefore_lead (by simp [hk]) style
    obtain ⟨pre, x, post, rfl, hplace, hx⟩ := h.writtenPlace hP (by simp [hk]) hc hz
    exact ⟨tagged, _, pre, x, post, rfl, hlead, hplace, hx⟩
  | map hk h =>
    obtain ⟨tagged, hlead⟩ := s.tagBefore_lead (by simp [hk]) style
    obtain ⟨pre, x, post, rfl, hplace, hx⟩ := h.writtenPlace hP hk hc hz
    exact ⟨tagged, _, pre, x, post, rfl, hlead, hplace, hx⟩
  | constructor hk h =>
    cases h with
    | mk hi hu =>
      rename_i index general u
      obtain ⟨pre, x, post, rfl, hplace, hx⟩ := hu.writtenPlace hP (by simp [hk]) hc hz
      refine ⟨false, _, pre, x, post, ?_, .index hk (constructorFront_at index general), hplace, hx⟩
      rw [tagBefore_none (check_constructor hs hk).1, List.nil_append]
  | union hk h =>
    cases h with
    | mk hc' _ hv =>
      obtain ⟨tagged, hlead⟩ := s.tagBefore_lead (by simp [hk]) style
      rw [← hc, hc'] at hz
      cases i with
      | zero =>
        cases hz
        exact ⟨tagged, _, [], u, [], by simp, hlead, .variant hk, hP _ _ _ hv⟩
      | succ i => cases hz

end places

/-- **What is written for a value replays the bytes it kept, or each of its parts has its place
    there.** -/
theorem place_of_written {o : EncodeOptions} {n i : Nat} {v z : Value} {b : Bytes}
    (h : c.codec.WrittenTo o n v b) (hz : v.content.parts[i]? = some z) :
    (c.KeepsBytes v.type ∧ v.notes.raw = some b) ∨
      ∃ m s tagged lead pre x post, n = m + 1 ∧ b = lead ++ (pre ++ (x ++ post)) ∧
        c.resolve v.type = .ok s ∧ s.Lead tagged lead ∧
        s.WrittenPlace (c.codec.WrittenTo o m) v i pre x post ∧ c.codec.WrittenTo o m z x := by
  obtain ⟨m, rfl, has⟩ := Codec.exists_writeAs h
  cases has with
  | replayed hs hp _ hr => exact .inl ⟨⟨_, hs, hp⟩, hr⟩
  | taken hs _ hp hk =>
    have hcontent := pieces_content hp fun x hx => by
      rw [hx] at hz
      cases hz
    have hP : ∀ t z x, (c.codec.writing o m).PartAs t z x → c.codec.WrittenTo o m z x := by
      rintro _ z x ⟨hwrites, rfl⟩
      exact hwrites
    obtain ⟨tagged, lead, pre, x, post, hb, hlead, hplace, hx⟩ :=
      hk.writtenPlace hP (resolve_check hs).1 _ hcontent hz
    exact .inr ⟨m, _, tagged, lead, pre, x, post, rfl, hb, hs, hlead, hplace, hx⟩

end CborSchema
