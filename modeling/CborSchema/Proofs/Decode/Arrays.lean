import CborSchema.Decode.Array
import CborSchema.Proofs.Decode.Cells
import CborSchema.Proofs.Decode.Scalars

/-!
# Arrays on the wire

Which bytes hold an array of a shape.

* `Shape.Opens` -- the head of an array or map, and what is to come of it;
* `Positional` -- one element for each field, in order. An optional field at the end may have none;
  where the array has a break, the first field without one uses it up;
* `Shape.ArrayAt` -- an array of either layout; `readArray_reads`, `readArray_yields` -- this is
  what is read, and nothing else is;
* `ArrayAt.item`, `ArrayAt.cut` -- it is one item, and the parts lie in it one behind the other.
-/

namespace CborSchema

open Decoder

variable {s : Shape} {r : Reading}

/-! ## 1. The head of a collection -/

/-- The head of an array or map of a shape, and what is to come of it. -/
inductive Shape.Opens (s : Shape) (r : Reading) (m : Major) : Pending → Bytes → Prop where
  | counted {h : Head} {n : UInt64} {front : Bytes} (hh : h.Spelled front) (hm : h.major = m)
      (hn : h.arg = some n) (hf : s.requireFraming false = .ok ())
      (hmax : n.toNat ≤ r.options.maxCollectionLength.toNat) : Opens s r m (.counted n.toNat) front
  | toBreak {h : Head} {front : Bytes} (hh : h.Spelled front) (hm : h.major = m) (hn : h.arg = none)
      (hf : s.requireFraming true = .ok ()) : Opens s r m .toBreak front

theorem openCollection_reads {m : Major} {e : Pending} {front : Bytes} (h : s.Opens r m e front) :
    (s.openCollection r m).Reads front e := by
  cases h with
  | counted hh hm hn hf hmax =>
    rename_i h n
    refine Reads.bind_nil (Reads.scan (hh s.name)) ?_
    have hi : h.isIndefinite = false := by simp [Head.isIndefinite, hn]
    rw [if_neg (not_not.mpr hm), hi]
    refine Reads.bind (u := []) (Reads.ofExcept hf) ?_
    rw [if_neg Bool.false_ne_true]
    have hl : h.boundedLength r.options.maxCollectionLength s.name = .ok n.toNat :=
      (boundedLength_eq_ok hn).mpr ⟨hmax, rfl⟩
    exact Reads.bind (u := []) (Reads.scan (Scan.Reads.ofExcept hl)) (Reads.pure _)
  | toBreak hh hm hn hf =>
    rename_i h
    refine Reads.bind_nil (Reads.scan (hh s.name)) ?_
    have hi : h.isIndefinite = true := by simp [Head.isIndefinite, hn]
    rw [if_neg (not_not.mpr hm), hi]
    refine Reads.bind (u := []) (Reads.ofExcept hf) ?_
    rw [if_pos rfl]
    exact Reads.pure _

theorem openCollection_yields (s : Shape) (r : Reading) (m : Major) :
    (s.openCollection r m).Yields (s.Opens r m) := by
  refine (Yields.scan (head_yields s.name)).bind fun h front hh => ?_
  split
  · exact Yields.fail _
  · rename_i hm
    rw [ne_eq, not_not] at hm
    refine Yields.after fun _ hf => ?_
    split
    · rename_i hi
      refine Yields.pure ?_
      rw [List.append_nil]
      rw [hi] at hf
      exact .toBreak hh hm (by simpa [Head.isIndefinite] using hi) hf
    · rename_i hi
      obtain ⟨n, hn⟩ := Option.ne_none_iff_exists'.mp
        (show h.arg ≠ none by simpa [Head.isIndefinite] using hi)
      rw [Bool.not_eq_true] at hi
      rw [hi] at hf
      refine Yields.bind (P := fun k u => u = [] ∧ _) (Yields.scan (Scan.Yields.ofExcept
        fun k hk => ⟨rfl, (boundedLength_eq_ok hn).mp hk⟩)) fun k u hu => ?_
      obtain ⟨rfl, hmax, rfl⟩ := hu
      refine Yields.pure ?_
      simp only [List.append_nil]
      exact .counted hh hm hn hf hmax

/-- **A head with the elements it announces is one item.** -/
theorem Shape.Opens.item {P : Bytes → Prop} {m : Major} {w k : Nat} {e : Pending}
    {front inner u : Bytes} (ho : s.Opens r m e front) (hm : m.perElement = some w)
    (hb : e.Body k inner u) (hs : InRow P (k * w) inner) : ItemOf P (front ++ u) := by
  cases ho with
  | counted hh hmaj hn hf hmax =>
    cases hb
    exact .counted hh (hmaj ▸ hm) hn hs
  | toBreak hh hmaj hn hf =>
    cases hb
    exact .opened hh (hmaj ▸ hm) hn hs

/-! ## 2. Items -/

/-- One step of the loop over items, which keeps what it read last first. -/
def ItemStep (r : Reading) (item : TypeExpr) (rev : List Value) (x : Bytes) (rev' : List Value) :
    Prop := ∃ v, rev' = v :: rev ∧ r.PartAt item v x

theorem row_of_steps {item : TypeExpr} {k : Nat} {rev rev' : List Value} {inner : Bytes}
    (h : Steps (ItemStep r item) k rev inner rev') :
    ∃ vs, rev' = vs.reverse ++ rev ∧ vs.length = k ∧ Row (r.PartAt item) vs inner := by
  induction h with
  | nil => exact ⟨[], rfl, rfl, .nil⟩
  | cons hx _ ih =>
    obtain ⟨v, rfl, hv⟩ := hx
    obtain ⟨vs, rfl, rfl, hvs⟩ := ih
    exact ⟨v :: vs, by simp, rfl, .cons hv hvs⟩

theorem steps_of_row {item : TypeExpr} {vs : List Value} {inner : Bytes}
    (h : Row (r.PartAt item) vs inner) (rev : List Value) :
    Steps (ItemStep r item) vs.length rev inner (vs.reverse ++ rev) := by
  induction h generalizing rev with
  | nil => exact .nil
  | cons hx _ ih =>
    rw [List.reverse_cons, List.append_assoc]
    exact .cons ⟨_, rfl, hx⟩ (ih _)

theorem itemStep_startsItem {item : TypeExpr} (rev : List Value) (x : Bytes) (rev' : List Value)
    (h : ItemStep r item rev x rev') : Scan.StartsItem x := by
  obtain ⟨v, _, hv⟩ := h
  exact hv.item.startsItem

theorem itemStep_reads {item : TypeExpr} (rev : List Value) (x : Bytes) (rev' : List Value)
    (h : ItemStep r item rev x rev') :
    (r.part item >>= fun v => pure (v :: rev) : Decoder (List Value)).Reads x rev' := by
  obtain ⟨v, rfl, hv⟩ := h
  exact Reads.bind_nil hv.reads (Reads.pure _)

theorem readItems_reads {item : TypeExpr} {e : Pending} {vs : List Value} {inner u : Bytes}
    (hb : e.Body vs.length inner u) (h : Row (r.PartAt item) vs inner) :
    (readItems r item e).Reads u vs := by
  refine Reads.bind_nil (Pending.fold_reads itemStep_startsItem itemStep_reads hb
    (steps_of_row h [])) ?_
  simpa using Reads.pure vs

theorem readItems_yields (hr : r.Sound) (item : TypeExpr) (e : Pending) :
    (readItems r item e).Yields fun vs u =>
      ∃ inner, e.Body vs.length inner u ∧ Row (r.PartAt item) vs inner := by
  refine Yields.bind (Pending.fold_yields itemStep_startsItem itemStep_reads ?_ e [])
    fun rev u hu => ?_
  · intro rev
    refine (hr.partAt item).bind fun v x hv => Yields.pure ?_
    rw [List.append_nil]
    exact ⟨v, rfl, hv⟩
  · obtain ⟨k, inner, hb, hs⟩ := hu
    obtain ⟨vs, rfl, rfl, hvs⟩ := row_of_steps hs
    refine Yields.pure ?_
    simpa using ⟨inner, hb, hvs⟩

/-! ## 3. Slots -/

/-- The slot of a field that is there. -/
inductive SlotAt (r : Reading) (type : TypeExpr) (presence : Presence) :
    Option Value → Bytes → Prop where
  | null (hp : presence = .nullable) : SlotAt r type presence none [nullByte]
  | value {v : Value} {u : Bytes} (hv : r.PartAt type v u)
      (hn : presence = .nullable → u.head? ≠ some nullByte) : SlotAt r type presence (some v) u

variable {type : TypeExpr} {presence : Presence}

theorem readSlot_reads {name : String} {slot : Option Value} {u : Bytes}
    (h : SlotAt r type presence slot u) : (readSlot r name type presence).Reads u slot := by
  rw [readSlot]
  cases h with
  | null hp =>
    rw [if_pos hp]
    refine Reads.peekByte ?_
    rw [if_pos rfl]
    exact Reads.bind_nil (Reads.scan (Scan.byte_reads name nullByte)) (Reads.pure none)
  | value hv hn =>
    rename_i v
    split
    · rename_i hp
      obtain ⟨b, tail, rfl, _⟩ := hv.item.startsItem
      have hb : b ≠ nullByte := by simpa using hn hp
      refine Reads.peekByte ?_
      rw [if_neg hb]
      exact Reads.bind_nil hv.reads (Reads.pure _)
    · exact Reads.bind_nil hv.reads (Reads.pure _)

theorem readSlot_yields (hr : r.Sound) (name : String) (type : TypeExpr) (presence : Presence) :
    (readSlot r name type presence).Yields (SlotAt r type presence) := by
  rw [readSlot]
  split
  · rename_i hp
    refine Yields.peekByte fun b => ?_
    split
    · rename_i hb
      refine (Yields.scan (Scan.byte_yields name)).bind fun c u hu => Yields.pure ?_
      subst hu
      refine ⟨by simp, fun hc => ?_⟩
      obtain rfl : c = b := by simpa using hc
      subst hb
      exact .null hp
    · rename_i hb
      refine (hr.partAt type).bind fun v u hv => Yields.pure ?_
      rw [List.append_nil]
      refine ⟨hv.item.ne_nil, fun hu => .value hv fun _ => ?_⟩
      rw [hu, ne_eq, Option.some.injEq]
      exact hb
  · rename_i hp
    refine (hr.partAt type).bind fun v u hv => Yields.pure ?_
    rw [List.append_nil]
    exact .value hv fun hp' => absurd hp' hp

/-! ## 4. Fields in order -/

/-- One element for each field, in order: from what is to come to what is to come then. -/
inductive Positional (r : Reading) (name : String) :
    List Field → Pending → List (Option Value) → Pending → Bytes → Prop where
  | nil {e : Pending} : Positional r name [] e [] e []
  | literal {f : Field} {l : Literal} {fs : List Field} {e e' e'' : Pending}
      {slots : List (Option Value)} {x u : Bytes} (hf : f.body = .literal l) (he : e.More e')
      (hx : LiteralAt name r.options.maxStringLength l x)
      (hs : Positional r name fs e' slots e'' u) :
      Positional r name (f :: fs) e slots e'' (x ++ u)
  | value {f : Field} {type : TypeExpr} {presence : Presence} {fs : List Field} {e e' e'' : Pending}
      {slot : Option Value} {slots : List (Option Value)} {x u : Bytes}
      (hf : f.body = .value type presence) (he : e.More e') (hx : SlotAt r type presence slot x)
      (hs : Positional r name fs e' slots e'' u) :
      Positional r name (f :: fs) e (slot :: slots) e'' (x ++ u)
  | absent {f : Field} {fs : List Field} {e e'' : Pending} {slots : List (Option Value)}
      {w u : Bytes} (hf : f.presence = .optional) (he : e.Ends w)
      (hs : Positional r name fs (.counted 0) slots e'' u) :
      Positional r name (f :: fs) e (none :: slots) e'' (w ++ u)

theorem SlotAt.isItem {slot : Option Value} {u : Bytes} (h : SlotAt r type presence slot u) :
    IsItem u := by
  cases h with
  | null hp =>
    have hnull := (Head.Spelled.short (i := nullByte) (by decide))
    exact Item.isItem (l := 1) (.plain hnull (by simp) (.inr (.inr rfl)))
  | value hv hn => exact hv.item

theorem LiteralAt.isItem {name : String} {max : UInt64} {l : Literal} {u : Bytes}
    (h : LiteralAt name max l u) : IsItem u := h.item.isItem

theorem readByPosition_reads {name : String} {fields : List Field} {e e' : Pending}
    {slots : List (Option Value)} {u : Bytes} (h : Positional r name fields e slots e' u) :
    (readByPosition r name fields e).Reads u (slots, e') := by
  induction h with
  | nil => exact Reads.pure _
  | literal hf he hx _ ih =>
    rw [readByPosition]
    refine Pending.Reads.more he (hx.isItem.startsItem.append _) ?_
    simp only [if_true, hf]
    exact (expectLiteral_reads hx).bind ih
  | value hf he hx _ ih =>
    rw [readByPosition]
    refine Pending.Reads.more he (hx.isItem.startsItem.append _) ?_
    simp only [if_true, hf]
    exact (readSlot_reads hx).bind (Reads.bind_nil ih (Reads.pure _))
  | absent hf he _ ih =>
    rw [readByPosition]
    refine Pending.Reads.ends he ?_
    simp only [if_false, hf, if_true, Bool.false_eq_true]
    exact Reads.bind_nil ih (Reads.pure _)

theorem readByPosition_yields (hr : r.Sound) (name : String) (fields : List Field) (e : Pending) :
    (readByPosition r name fields e).Yields fun p u =>
      Positional r name fields e p.1 p.2 u := by
  induction fields generalizing e with
  | nil => exact Yields.pure .nil
  | cons f fs ih =>
    rw [readByPosition]
    refine Pending.Yields.another ?_ ?_
    · intro e' he
      simp only [if_true]
      split
      · rename_i l hf
        refine (expectLiteral_yields name _ f.key l).bind fun _ x hx => (ih e').mono ?_
        intro p u _ hs
        exact ⟨hx.isItem.startsItem.append u, .literal hf he hx hs⟩
      · rename_i type presence hf
        refine (readSlot_yields hr name type presence).bind fun slot x hx => ?_
        refine (ih e').bind fun p u hs => Yields.pure ?_
        rw [List.append_nil]
        exact ⟨hx.isItem.startsItem.append u, .value hf he hx hs⟩
    · intro w he
      simp only [Bool.false_eq_true, if_false]
      split
      · rename_i hf
        refine (ih (.counted 0)).bind fun p u hs => Yields.pure ?_
        rw [List.append_nil]
        exact .absent hf he hs
      · exact Yields.fail _

/-- Some of the pending elements, and the break where the last of them was looked for in vain. -/
inductive Pending.Takes : Pending → Nat → Pending → Bytes → Bytes → Prop where
  | counted {k n : Nat} {inner : Bytes} : Takes (counted (k + n)) k (counted n) inner inner
  | going {k : Nat} {inner : Bytes} : Takes toBreak k toBreak inner inner
  | ended {k : Nat} {inner : Bytes} : Takes toBreak k (counted 0) inner (inner ++ [breakByte])

theorem Pending.Takes.refl (e : Pending) : e.Takes 0 e [] [] := by
  cases e with
  | counted n =>
    have := @Takes.counted 0 n []
    rwa [Nat.zero_add] at this
  | toBreak => exact .going

theorem Pending.Takes.cons {e e' e'' : Pending} {k : Nat} {inner u : Bytes} (he : e.More e')
    (h : e'.Takes k e'' inner u) (x : Bytes) : e.Takes (k + 1) e'' (x ++ inner) (x ++ u) := by
  cases he with
  | counted =>
    cases h with
    | counted =>
      rename_i n
      have := @Takes.counted (k + 1) n (x ++ inner)
      rwa [Nat.add_right_comm] at this
  | toBreak =>
    cases h with
    | going => exact .going
    | ended =>
      rw [← List.append_assoc]
      exact .ended

/-- Where no element follows, none was taken either. -/
theorem Pending.Takes.ends {e e'' : Pending} {k : Nat} {inner u w : Bytes} (he : e.Ends w)
    (h : (Pending.counted 0).Takes k e'' inner u) (hs : InRow IsItem k inner) :
    e.Takes k e'' inner (w ++ u) := by
  generalize h0 : Pending.counted 0 = e0 at h
  cases h with
  | counted =>
    rename_i n
    obtain ⟨rfl, rfl⟩ : k = 0 ∧ n = 0 := by
      rw [Pending.counted.injEq] at h0
      omega
    cases hs
    cases he with
    | counted => exact .refl _
    | toBreak => exact .ended
  | going => cases h0
  | ended => cases h0

/-- Elements taken first and those taken then are all of them. -/
theorem Pending.Takes.body {e e' : Pending} {j k : Nat} {inner u inner' u' : Bytes}
    (h : e.Takes j e' inner u) (hb : e'.Body k inner' u') (hs : InRow IsItem k inner') :
    e.Body (j + k) (inner ++ inner') (u ++ u') := by
  cases h with
  | counted =>
    cases hb
    exact .counted
  | going =>
    cases hb
    rw [← List.append_assoc]
    exact .toBreak
  | ended =>
    generalize h0 : Pending.counted 0 = e0 at hb
    cases hb with
    | counted =>
      obtain rfl : 0 = k := by simpa using h0
      cases hs
      rw [List.append_nil, List.append_nil]
      exact .toBreak
    | toBreak => cases h0

/-- **The elements of the fields are items, and the slots are read off them in order.** -/
theorem Positional.cells {name : String} {fields : List Field} {e e' : Pending}
    {slots : List (Option Value)} {u : Bytes} (h : Positional r name fields e slots e' u) :
    ∃ cells : List (Cell Value), (∀ c ∈ cells, IsItem c.bytes ∧ r.Fits c) ∧
      Cells.parts cells = slots.filterMap id ∧ e.Takes cells.length e' (Cells.bytes cells) u := by
  induction h with
  | nil => exact ⟨[], by simp, rfl, .refl _⟩
  | literal hf he hx _ ih =>
    rename_i x u _
    obtain ⟨cells, hc, hp, ht⟩ := ih
    refine ⟨⟨none, x⟩ :: cells, ?_, hp, ht.cons he x⟩
    simpa using ⟨⟨hx.isItem, .own _ x⟩, hc⟩
  | value hf he hx _ ih =>
    rename_i x u _
    obtain ⟨cells, hc, hp, ht⟩ := ih
    cases hx with
    | null hn =>
      have hnull : SlotAt r .null .nullable none [nullByte] := .null rfl
      refine ⟨⟨none, [nullByte]⟩ :: cells, ?_, hp, ht.cons he [nullByte]⟩
      simpa using ⟨⟨hnull.isItem, .own _ _⟩, hc⟩
    | value hv hn =>
      rename_i v
      refine ⟨⟨some v, x⟩ :: cells, ?_, by simpa using hp, ht.cons he x⟩
      simpa using ⟨⟨hv.item, hv.fits⟩, hc⟩
  | absent hf he _ ih =>
    obtain ⟨cells, hc, hp, ht⟩ := ih
    exact ⟨cells, hc, by simpa using hp, ht.ends he (Cells.inRow fun c h => (hc c h).1)⟩

/-! ## 5. Arrays -/

/-- One step of the loop over the elements past the last field. -/
def SkipStep (r : Reading) (n : Nat) (x : Bytes) (n' : Nat) : Prop :=
  n' = n + 1 ∧ Item (r.depth + 1) x

theorem steps_skip_iff {k n n' : Nat} {inner : Bytes} :
    Steps (SkipStep r) k n inner n' ↔ n' = n + k ∧ InRow (Item (r.depth + 1)) k inner := by
  constructor
  · intro h
    induction h with
    | nil => exact ⟨rfl, .nil⟩
    | cons hx _ ih =>
      obtain ⟨rfl, hi⟩ := hx
      exact ⟨by rw [ih.1, Nat.add_assoc, Nat.add_comm 1], .cons hi ih.2⟩
  · rintro ⟨rfl, h⟩
    induction h generalizing n with
    | nil => exact .nil
    | cons hx _ ih =>
      rename_i k _
      have := ih (n := n + 1)
      rw [Nat.add_assoc, Nat.add_comm 1] at this
      exact .cons ⟨rfl, hx⟩ this

theorem skipStep_startsItem (n : Nat) (x : Bytes) (n' : Nat) (h : SkipStep r n x n') :
    Scan.StartsItem x := h.2.startsItem

theorem skipStep_reads (n : Nat) (x : Bytes) (n' : Nat) (h : SkipStep r n x n') :
    ((liftM (Scan.skip r.depth) : Decoder Unit) >>= fun _ => pure (n + 1)).Reads x n' := by
  obtain ⟨rfl, hi⟩ := h
  exact Reads.bind_nil (Reads.scan (Scan.skip_reads hi)) (Reads.pure _)

theorem skipElements_reads {e : Pending} {k : Nat} {inner u : Bytes} (hb : e.Body k inner u)
    (h : InRow (Item (r.depth + 1)) k inner) : (skipElements r e).Reads u k := by
  refine Pending.fold_reads skipStep_startsItem skipStep_reads hb (steps_skip_iff.mpr ⟨?_, h⟩)
  rw [Nat.zero_add]

theorem skipElements_yields (r : Reading) (e : Pending) :
    (skipElements r e).Yields fun k u =>
      ∃ inner, e.Body k inner u ∧ InRow (Item (r.depth + 1)) k inner := by
  refine (Pending.fold_yields skipStep_startsItem skipStep_reads (fun n => ?_) e 0).mono ?_
  · refine (Yields.scan (Scan.skip_yields r.depth)).bind fun _ x hx => Yields.pure ?_
    rw [List.append_nil]
    exact ⟨rfl, hx⟩
  · rintro n u _ ⟨k, inner, hb, hs⟩
    obtain ⟨rfl, hi⟩ := steps_skip_iff.mp hs
    rw [Nat.zero_add]
    exact ⟨inner, hb, hi⟩

/-- An array of a shape. -/
inductive Shape.ArrayAt (s : Shape) (r : Reading) : Parts → Bytes → Prop where
  | items {item : TypeExpr} {e : Pending} {vs : List Value} {front inner u : Bytes}
      (hl : s.layout = some (.items item)) (ho : s.Opens r .array e front)
      (hb : e.Body vs.length inner u) (hv : Row (r.PartAt item) vs inner) :
      ArrayAt s r { name := s.name, content := .items vs, style := e.style } (front ++ u)
  | fields {fields : List Field} {e e' : Pending} {slots : List (Option Value)} {k : Nat}
      {front u inner w : Bytes} (hl : s.layout = some (.fields fields))
      (ho : s.Opens r .array e front) (hp : Positional r s.name fields e slots e' u)
      (hb : e'.Body k inner w) (hx : InRow (Item (r.depth + 1)) k inner)
      (hk : k = 0 ∨ s.extensible) :
      ArrayAt s r { name := s.name, content := .fields slots, style := e.style }
        (front ++ (u ++ w))

theorem readPositional_reads {fields : List Field} {e e' : Pending} {slots : List (Option Value)}
    {k : Nat} {u inner w : Bytes} (hp : Positional r s.name fields e slots e' u)
    (hb : e'.Body k inner w) (hx : InRow (Item (r.depth + 1)) k inner) (hk : k = 0 ∨ s.extensible) :
    (s.readPositional r fields e).Reads (u ++ w) slots := by
  refine (readByPosition_reads hp).bind (Reads.bind_nil (skipElements_reads hb hx) ?_)
  have hno : ¬ ((decide (0 < k) && !s.extensible) = true) := by
    rcases hk with rfl | hk
    · simp
    · simp [hk]
  rw [if_neg hno]
  exact Reads.pure slots

theorem readArray_reads {parts : Parts} {u : Bytes} (h : s.ArrayAt r parts u) :
    (s.readArray r).Reads u parts := by
  cases h with
  | items hl ho hb hv =>
    refine (openCollection_reads ho).bind ?_
    rw [hl]
    exact Reads.bind_nil (readItems_reads hb hv) (Reads.pure _)
  | fields hl ho hp hb hx hk =>
    refine (openCollection_reads ho).bind ?_
    rw [hl]
    exact Reads.bind_nil (readPositional_reads hp hb hx hk) (Reads.pure _)

theorem readPositional_yields (hr : r.Sound) (s : Shape) (fields : List Field) (e : Pending) :
    (s.readPositional r fields e).Yields fun slots u =>
      ∃ e' k v inner w, u = v ++ w ∧ Positional r s.name fields e slots e' v ∧
        e'.Body k inner w ∧ InRow (Item (r.depth + 1)) k inner ∧ (k = 0 ∨ s.extensible) := by
  refine (readByPosition_yields hr s.name fields e).bind fun p v hp => ?_
  refine (skipElements_yields r p.2).bind fun k w hw => ?_
  obtain ⟨inner, hb, hx⟩ := hw
  split
  · exact Yields.fail _
  · rename_i hk
    refine Yields.pure ⟨p.2, k, v, inner, w, by simp, hp, hb, hx, ?_⟩
    simp only [Bool.and_eq_true, decide_eq_true_eq, Bool.not_eq_true', not_and,
      Bool.not_eq_false] at hk
    rcases Nat.eq_zero_or_pos k with h0 | h0
    · exact .inl h0
    · exact .inr (hk h0)

theorem readArray_yields (hr : r.Sound) (s : Shape) : (s.readArray r).Yields (s.ArrayAt r) := by
  refine (openCollection_yields s r .array).bind fun e front ho => ?_
  split
  · rename_i item hl
    refine (readItems_yields hr item e).bind fun vs u hu => Yields.pure ?_
    obtain ⟨inner, hb, hv⟩ := hu
    rw [List.append_nil]
    exact .items hl ho hb hv
  · rename_i fields hl
    refine (readPositional_yields hr s fields e).bind fun slots u hu => Yields.pure ?_
    obtain ⟨e', k, v, inner, w, rfl, hp, hb, hx, hk⟩ := hu
    rw [List.append_nil]
    exact .fields hl ho hp hb hx hk
  · exact Yields.fail _

/-- **An array of a shape is one item.** -/
theorem Shape.ArrayAt.item {parts : Parts} {u : Bytes} (h : s.ArrayAt r parts u) : IsItem u := by
  cases h with
  | items hl ho hb hv =>
    have hrow := hv.inRow fun v x (h : r.PartAt _ v x) => h.item
    exact (ho.item (w := 1) rfl hb (by rwa [Nat.mul_one])).isItem
  | fields hl ho hp hb hx hk =>
    obtain ⟨cells, hc, _, ht⟩ := hp.cells
    have hx' := hx.mono fun x h => h.isItem
    have hrow := (Cells.inRow fun c h => (hc c h).1).append hx'
    exact (ho.item (w := 1) rfl (ht.body hb hx') (by rwa [Nat.mul_one])).isItem

theorem Pending.Body.behind {e : Pending} {k : Nat} {inner u : Bytes} (h : e.Body k inner u) :
    ∃ w, u = inner ++ w := by
  cases h with
  | counted => exact ⟨[], (List.append_nil _).symm⟩
  | toBreak => exact ⟨_, rfl⟩

theorem Pending.Takes.behind {e e' : Pending} {k : Nat} {inner u : Bytes}
    (h : e.Takes k e' inner u) : ∃ w, u = inner ++ w := by
  cases h with
  | counted => exact ⟨[], (List.append_nil _).symm⟩
  | going => exact ⟨[], (List.append_nil _).symm⟩
  | ended => exact ⟨_, rfl⟩

/-- **The parts of an array lie in its bytes one behind the other.** -/
theorem Shape.ArrayAt.cut {parts : Parts} {u : Bytes} (h : s.ArrayAt r parts u) :
    r.Cut parts.content.parts u := by
  cases h with
  | items hl ho hb hv =>
    obtain ⟨w, rfl⟩ := hb.behind
    exact .front _ (.back w (hv.cut fun _ _ h => h.cut).singles)
  | fields hl ho hp hb hx hk =>
    obtain ⟨cells, hc, hparts, ht⟩ := hp.cells
    obtain ⟨v, rfl⟩ := ht.behind
    have hcut : r.Cut _ (Cells.bytes cells) := ⟨cells, rfl, fun c h => (hc c h).2, .refl _⟩
    rw [hparts] at hcut
    exact .front _ (.back _ (.back v hcut))

end CborSchema
