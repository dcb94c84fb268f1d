import CborSchema.Proofs.Decode.Maps

/-!
# What lies in a collection

An array or a map apart from its head and its break.

* `Head.pending` -- what a head announces; `Shape.opens_iff` says when a collection of a shape may
  start with it;
* `Shape.Laid` -- elements laid out over fields, those past the last field included. Where an
  element ends the array, all fields from there on have none;
* `Positional.laid`, `Laid.positional` -- reading field by field finds just these;
* `Shape.ArrayHolds`, `Shape.MapHolds` -- the content of an array or map in the bytes of its
  elements;
* `Shape.arrayAt_iff`, `Shape.mapAt_iff` -- **a collection is its head and what lies in it.**
-/

namespace CborSchema

open Decoder

variable {s : Shape} {r : Reading}

/-! ## 1. Heads -/

/-- What a head announces, if it is the head of an array or a map. -/
def Head.pending (h : Head) : Pending :=
  match h.arg with
  | some n => .counted n.toNat
  | none => .toBreak

/-- **A head with the items it announces is one item.** -/
theorem ItemOf.of_body {P : Bytes → Prop} {h : Head} {width k : Nat} {front inner u : Bytes}
    (hh : h.Spelled front) (hm : h.major.perElement = some width) (hb : h.pending.Body k inner u)
    (hs : InRow P (k * width) inner) : ItemOf P (front ++ u) := by
  unfold Head.pending at hb
  split at hb
  · rename_i n hn
    cases hb
    exact .counted hh hm hn hs
  · rename_i hn
    cases hb
    exact .opened hh hm hn hs

/-- **A collection of a shape starts with a head of its major type**, in the framing of the shape;
    if it announces a number of elements, this is within the limit. -/
theorem Shape.opens_iff {m : Major} {e : Pending} {front : Bytes} :
    s.Opens r m e front ↔ ∃ h : Head, h.Spelled front ∧ h.major = m ∧ e = h.pending ∧
      s.requireFraming h.isIndefinite = .ok () ∧
      ∀ n, h.arg = some n → n.toNat ≤ r.options.maxCollectionLength.toNat := by
  constructor
  · intro ho
    cases ho with
    | counted hh hm hn hf hmax =>
      refine ⟨_, hh, hm, by rw [Head.pending, hn], by rwa [Head.isIndefinite, hn], fun n hn' => ?_⟩
      rw [hn, Option.some.injEq] at hn'
      exact hn' ▸ hmax
    | toBreak hh hm hn hf =>
      refine ⟨_, hh, hm, by rw [Head.pending, hn], by rwa [Head.isIndefinite, hn], fun n hn' => ?_⟩
      rw [hn] at hn'
      cases hn'
  · rintro ⟨h, hh, hm, rfl, hf, hmax⟩
    cases hn : h.arg with
    | some n =>
      rw [Head.isIndefinite, hn] at hf
      rw [Head.pending, hn]
      exact .counted hh hm hn hf (hmax n hn)
    | none =>
      rw [Head.isIndefinite, hn] at hf
      rw [Head.pending, hn]
      exact .toBreak hh hm hn hf

theorem Shape.Opens.startsHead {m : Major} {e : Pending} {front : Bytes} (h : s.Opens r m e front)
    (u : Bytes) : ∃ head, StartsHead head (front ++ u) ∧ head.major = m := by
  cases h with
  | counted hh hm hn hf hmax => exact ⟨_, hh.starts u, hm⟩
  | toBreak hh hm hn hf => exact ⟨_, hh.starts u, hm⟩

/-! ## 2. Bodies -/

namespace Pending

variable {e e' : Pending} {n : Nat} {x inner u w : Bytes}

theorem Body.cons (he : e.More e') (h : e'.Body n inner u) (x : Bytes) :
    e.Body (n + 1) (x ++ inner) (x ++ u) := by
  cases he with
  | counted =>
    cases h
    exact .counted
  | toBreak =>
    cases h
    rw [← List.append_assoc]
    exact .toBreak

theorem Body.uncons (h : e.Body (n + 1) (x ++ inner) u) :
    ∃ e' u', e.More e' ∧ u = x ++ u' ∧ e'.Body n inner u' := by
  generalize hx : x ++ inner = y at h
  generalize hn : n + 1 = m at h
  cases h with
  | counted =>
    subst hn hx
    exact ⟨_, inner, .counted, rfl, .counted⟩
  | toBreak =>
    subst hx
    exact ⟨_, inner ++ [breakByte], .toBreak, by rw [List.append_assoc], .toBreak⟩

theorem Body.ends (h : e.Body 0 [] u) : e.Ends u := by
  generalize hx : ([] : Bytes) = y at h
  generalize hn : 0 = m at h
  cases h with
  | counted =>
    subst hn hx
    exact .counted
  | toBreak =>
    subst hx
    exact .toBreak

theorem Ends.body (h : e.Ends u) : e.Body 0 [] u := by
  cases h with
  | counted => exact .counted
  | toBreak => exact .toBreak

end Pending

/-! ## 3. Elements of fields -/

/-- So many elements laid out over fields. Those past the last field may only be there if the shape
    is extensible; where there are none left, all fields are optional. -/
inductive Shape.Laid (s : Shape) (r : Reading) :
    List Field → List (Option Value) → Nat → Bytes → Prop where
  | past {k : Nat} {inner : Bytes} (hx : InRow (Item (r.depth + 1)) k inner)
      (hk : k = 0 ∨ s.extensible) : Laid s r [] [] k inner
  | literal {f : Field} {l : Literal} {fs : List Field} {slots : List (Option Value)} {k : Nat}
      {x u : Bytes} (hf : f.body = .literal l) (hx : LiteralAt s.name r.options.maxStringLength l x)
      (hs : Laid s r fs slots k u) : Laid s r (f :: fs) slots (k + 1) (x ++ u)
  | value {f : Field} {type : TypeExpr} {presence : Presence} {fs : List Field}
      {slot : Option Value} {slots : List (Option Value)} {k : Nat} {x u : Bytes}
      (hf : f.body = .value type presence) (hx : SlotAt r type presence slot x)
      (hs : Laid s r fs slots k u) : Laid s r (f :: fs) (slot :: slots) (k + 1) (x ++ u)
  | absent {f : Field} {fs : List Field} {slots : List (Option Value)} (hf : f.presence = .optional)
      (hs : Laid s r fs slots 0 []) : Laid s r (f :: fs) (none :: slots) 0 []

theorem Shape.Laid.inRow {fields : List Field} {slots : List (Option Value)} {k : Nat}
    {inner : Bytes} (h : s.Laid r fields slots k inner) : InRow IsItem k inner := by
  induction h with
  | past hx hk => exact hx.mono fun x hx => hx.isItem
  | literal hf hx hs ih => exact .cons hx.isItem ih
  | value hf hx hs ih => exact .cons hx.isItem ih
  | absent hf hs ih => exact .nil

theorem InRow.eq_nil {P : Bytes → Prop} {u : Bytes} (h : InRow P 0 u) : u = [] := by
  cases h
  rfl

/-- **What is read field by field, and what is left then, are elements laid out over the
    fields.** -/
theorem Positional.laid {fields : List Field} {e e' : Pending} {slots : List (Option Value)}
    {u : Bytes} (h : Positional r s.name fields e slots e' u) {k : Nat} {extra w : Bytes}
    (hb : e'.Body k extra w) (hx : InRow (Item (r.depth + 1)) k extra) (hk : k = 0 ∨ s.extensible) :
    ∃ n inner, s.Laid r fields slots n inner ∧ e.Body n inner (u ++ w) := by
  induction h with
  | nil => exact ⟨k, extra, .past hx hk, hb⟩
  | literal hf he hl _ ih =>
    obtain ⟨n, inner, hlaid, hbody⟩ := ih hb
    rw [List.append_assoc]
    exact ⟨n + 1, _, .literal hf hl hlaid, hbody.cons he _⟩
  | value hf he hv _ ih =>
    obtain ⟨n, inner, hlaid, hbody⟩ := ih hb
    rw [List.append_assoc]
    exact ⟨n + 1, _, .value hf hv hlaid, hbody.cons he _⟩
  | absent hf he _ ih =>
    obtain ⟨n, inner, hlaid, hbody⟩ := ih hb
    rename_i ends u _
    generalize hrest : u ++ w = rest at hbody
    cases hbody
    obtain rfl := hlaid.inRow.eq_nil
    rw [List.append_assoc, hrest, List.append_nil]
    exact ⟨0, [], .absent hf hlaid, he.body⟩

/-- **Elements laid out over fields are read field by field**, whatever announces them. -/
theorem Shape.Laid.positional {fields : List Field} {slots : List (Option Value)} {n : Nat}
    {inner : Bytes} (h : s.Laid r fields slots n inner) {e : Pending} {bytes : Bytes}
    (hb : e.Body n inner bytes) : ∃ e' k u extra w, bytes = u ++ w ∧
      Positional r s.name fields e slots e' u ∧ e'.Body k extra w ∧
      InRow (Item (r.depth + 1)) k extra ∧ (k = 0 ∨ s.extensible) := by
  induction h generalizing e bytes with
  | past hx hk => exact ⟨e, _, [], _, bytes, rfl, .nil, hb, hx, hk⟩
  | literal hf hl _ ih =>
    obtain ⟨e₁, rest, he, rfl, hbody⟩ := hb.uncons
    obtain ⟨e', k, u, extra, w, rfl, hpos, hbody', hx, hk⟩ := ih hbody
    exact ⟨e', k, _, extra, w, by rw [List.append_assoc], .literal hf he hl hpos, hbody', hx, hk⟩
  | value hf hv _ ih =>
    obtain ⟨e₁, rest, he, rfl, hbody⟩ := hb.uncons
    obtain ⟨e', k, u, extra, w, rfl, hpos, hbody', hx, hk⟩ := ih hbody
    exact ⟨e', k, _, extra, w, by rw [List.append_assoc], .value hf he hv hpos, hbody', hx, hk⟩
  | absent hf _ ih =>
    obtain ⟨e', k, u, extra, w, hnil, hpos, hbody, hx, hk⟩ := ih (e := .counted 0) .counted
    refine ⟨e', k, bytes ++ u, extra, w, ?_, .absent hf hb.ends hpos, hbody, hx, hk⟩
    rw [List.append_assoc, ← hnil, List.append_nil]

/-! ## 4. Collections -/

/-- The content of an array in the bytes of its elements. -/
inductive Shape.ArrayHolds (s : Shape) (r : Reading) : Content Value → Nat → Bytes → Prop where
  | items {item : TypeExpr} {vs : List Value} {inner : Bytes} (hl : s.layout = some (.items item))
      (hv : Row (r.PartAt item) vs inner) : ArrayHolds s r (.items vs) vs.length inner
  | fields {fields : List Field} {slots : List (Option Value)} {n : Nat} {inner : Bytes}
      (hl : s.layout = some (.fields fields)) (hs : s.Laid r fields slots n inner) :
      ArrayHolds s r (.fields slots) n inner

/-- The content of a map in the bytes of its entries. -/
inductive Shape.MapHolds (s : Shape) (r : Reading) : Content Value → Nat → Bytes → Prop where
  | entries {key value : TypeExpr} {es : List (Bytes × Value × Value)} {inner : Bytes}
      (hl : s.layout = some (.entries key value)) (hes : Row (EntryAt r key value) es inner)
      (hkeys : (es.map Prod.fst).Nodup) :
      MapHolds s r (.entries (es.map fun e => e.2)) es.length inner
  | fields {fields : List Field} {found : Found} {n : Nat} {inner : Bytes}
      (hl : s.layout = some (.fields fields)) (hs : Steps (KeyedStep s r fields) n [] inner found)
      (hc : checkPresent s.name found fields = .ok ()) :
      MapHolds s r (.fields (slotsOf fields found)) n inner

theorem Shape.ArrayHolds.inRow {content : Content Value} {n : Nat} {inner : Bytes}
    (h : s.ArrayHolds r content n inner) : InRow IsItem n inner := by
  cases h with
  | items hl hv => exact hv.inRow fun _ _ hv => hv.item
  | fields hl hs => exact hs.inRow

theorem Shape.MapHolds.inRow {content : Content Value} {n : Nat} {inner : Bytes}
    (h : s.MapHolds r content n inner) : InRow IsItem (n * 2) inner := by
  cases h with
  | entries hl hes hkeys => exact hes.entries_inRow
  | fields hl hs hc => exact keyedSteps_inRow hs

/-- The parts of a collection of a shape. -/
def Shape.collected (s : Shape) (content : Content Value) (e : Pending) : Parts :=
  { name := s.name, content, style := e.style }

/-- **An array is its head and what lies in it.** -/
theorem Shape.arrayAt_iff {parts : Parts} {u : Bytes} : s.ArrayAt r parts u ↔
    ∃ e front body content n inner, u = front ++ body ∧ s.Opens r .array e front ∧
      e.Body n inner body ∧ s.ArrayHolds r content n inner ∧ parts = s.collected content e := by
  constructor
  · intro h
    cases h with
    | items hl ho hb hv => exact ⟨_, _, _, _, _, _, rfl, ho, hb, .items hl hv, rfl⟩
    | fields hl ho hp hb hx hk =>
      obtain ⟨n, inner, hlaid, hbody⟩ := hp.laid hb hx hk
      exact ⟨_, _, _, _, _, _, rfl, ho, hbody, .fields hl hlaid, rfl⟩
  · rintro ⟨e, front, body, content, n, inner, rfl, ho, hb, hc, rfl⟩
    cases hc with
    | items hl hv => exact .items hl ho hb hv
    | fields hl hlaid =>
      obtain ⟨e', k, u, extra, w, rfl, hpos, hbody, hx, hk⟩ := hlaid.positional hb
      exact .fields hl ho hpos hbody hx hk

/-- **A map is its head and what lies in it.** -/
theorem Shape.mapAt_iff {parts : Parts} {u : Bytes} : s.MapAt r parts u ↔
    ∃ e front body content n inner, u = front ++ body ∧ s.Opens r .map e front ∧
      e.Body n inner body ∧ s.MapHolds r content n inner ∧ parts = s.collected content e := by
  constructor
  · intro h
    cases h with
    | entries hl ho hb hes hkeys =>
      exact ⟨_, _, _, _, _, _, rfl, ho, hb, .entries hl hes hkeys, rfl⟩
    | fields hl ho hb hs hc => exact ⟨_, _, _, _, _, _, rfl, ho, hb, .fields hl hs hc, rfl⟩
  · rintro ⟨e, front, body, content, n, inner, rfl, ho, hb, hm, rfl⟩
    cases hm with
    | entries hl hes hkeys => exact .entries hl ho hb hes hkeys
    | fields hl hs hc => exact .fields hl ho hb hs hc

end CborSchema
