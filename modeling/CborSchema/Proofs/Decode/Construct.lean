import CborSchema.Decode.Construct
import CborSchema.Proofs.Decode.Cells

/-!
# What a value is built from

* `items_eq_ok`, `entries_eq_ok`, `takeSlots_eq_ok`, `orderEntries_perm` -- the parts that a type
  asks for are parts of the item, each of the type asked for;
* `construct_named_iff` -- a value of a declared type and the content it is built of;
* `Content.TakenAs`, `contentOf_takenAs` -- what becomes of the content of the item;
* `BuiltFrom`, `construct_built` -- a value that is built is of the type, its content is taken from
  the item, and it keeps the bytes it is handed.
-/

namespace CborSchema

theorem Except.ok_bind {ε α β : Type} (a : α) (f : α → Except ε β) :
    (Except.ok a >>= f) = f a := rfl

theorem Except.bind_eq_ok {ε α β : Type} {x : Except ε α} {f : α → Except ε β} {b : β}
    (h : (x >>= f) = .ok b) : ∃ a, x = .ok a ∧ f a = .ok b := by
  cases x with
  | error e => cases h
  | ok a => exact ⟨a, rfl, h⟩

variable {c : Catalog}

/-! ## 1. Parts of a type -/

theorem ofType_eq_ok {t : TypeExpr} {v w : Value} :
    c.ofType t v = .ok w ↔ w = v ∧ v.type = t := by
  rw [Catalog.ofType]
  split
  · rename_i ht
    rw [Except.ok.injEq]
    exact ⟨fun h => ⟨h.symm, ht⟩, fun h => h.1.symm⟩
  · rename_i ht
    exact ⟨fun h => (by cases h), fun h => absurd h.2 ht⟩

/-- A check on each member of a list. -/
theorem mapM_check_eq_ok {ε α : Type} {f : α → Except ε α} {Q : α → Prop}
    (hf : ∀ a b, f a = .ok b ↔ b = a ∧ Q a) {as bs : List α} :
    as.mapM f = .ok bs ↔ bs = as ∧ ∀ a ∈ as, Q a := by
  induction as generalizing bs with
  | nil =>
    rw [List.mapM_nil]
    constructor
    · intro h
      cases h
      exact ⟨rfl, by simp⟩
    · rintro ⟨rfl, _⟩
      rfl
  | cons a as ih =>
    rw [List.mapM_cons]
    constructor
    · intro h
      obtain ⟨b, hb, h⟩ := Except.bind_eq_ok h
      obtain ⟨bs', hbs, h⟩ := Except.bind_eq_ok h
      cases h
      obtain ⟨rfl, ha⟩ := (hf a b).mp hb
      obtain ⟨rfl, has⟩ := ih.mp hbs
      exact ⟨rfl, List.forall_mem_cons.mpr ⟨ha, has⟩⟩
    · rintro ⟨rfl, h⟩
      obtain ⟨ha, has⟩ := List.forall_mem_cons.mp h
      rw [(hf a a).mpr ⟨rfl, ha⟩, ih.mpr ⟨rfl, has⟩]
      rfl

theorem items_eq_ok {t : TypeExpr} {p : Parts} {vs : List Value} :
    c.items t p = .ok vs ↔ p.content = .items vs ∧ ∀ v ∈ vs, v.type = t := by
  rw [Catalog.items]
  split
  · rename_i ws hc
    rw [mapM_check_eq_ok fun v w => ofType_eq_ok, hc, Content.items.injEq]
    constructor
    · rintro ⟨rfl, h⟩
      exact ⟨rfl, h⟩
    · rintro ⟨rfl, h⟩
      exact ⟨rfl, h⟩
  · rename_i hc
    constructor
    · intro h
      cases h
    · intro h
      exact absurd h.1 (hc vs)

theorem entries_eq_ok {key value : TypeExpr} {p : Parts} {es : List (Value × Value)} :
    c.entries key value p = .ok es ↔
      p.content = .entries es ∧ ∀ e ∈ es, e.1.type = key ∧ e.2.type = value := by
  rw [Catalog.entries]
  split
  · rename_i ds hc
    rw [mapM_check_eq_ok (Q := fun e => e.1.type = key ∧ e.2.type = value), hc,
      Content.entries.injEq]
    · constructor
      · rintro ⟨rfl, h⟩
        exact ⟨rfl, h⟩
      · rintro ⟨rfl, h⟩
        exact ⟨rfl, h⟩
    · rintro ⟨k, v⟩ e
      constructor
      · intro h
        obtain ⟨k', hk, h⟩ := Except.bind_eq_ok h
        obtain ⟨v', hv, h⟩ := Except.bind_eq_ok h
        cases h
        obtain ⟨rfl, hk⟩ := ofType_eq_ok.mp hk
        obtain ⟨rfl, hv⟩ := ofType_eq_ok.mp hv
        exact ⟨rfl, hk, hv⟩
      · rintro ⟨rfl, hk, hv⟩
        dsimp only
        rw [ofType_eq_ok.mpr ⟨rfl, hk⟩, ofType_eq_ok.mpr ⟨rfl, hv⟩]
        rfl
  · rename_i hc
    constructor
    · intro h
      cases h
    · intro h
      exact absurd h.1 (hc es)

/-- What is in a slot is of the type that takes it, or the slot may be empty. -/
def Take.Fits (t : Take) : Option Value → Prop
  | none => t.optional = true
  | some v => v.type = t.type

/-- The first slot is taken if it fits, and then the others are. -/
theorem takeSlots_cons {name : String} {t : Take} {ts : List Take} {slot : Option Value}
    {slots taken : List (Option Value)} {left : Nat} :
    c.takeSlots name (t :: ts) (slot :: slots) = .ok (taken, left) ↔
      t.Fits slot ∧ ∃ others, c.takeSlots name ts slots = .ok (others, left) ∧
        taken = slot :: others := by
  cases slot with
  | none =>
    rw [Catalog.takeSlots]
    constructor
    · intro h
      split at h
      · rename_i ho
        obtain ⟨⟨others, _⟩, hothers, h⟩ := Except.bind_eq_ok h
        cases h
        exact ⟨ho, others, hothers, rfl⟩
      · cases h
    · rintro ⟨hfit, others, hothers, rfl⟩
      have ho : t.optional = true := hfit
      rw [if_pos ho, hothers]
      rfl
  | some v =>
    rw [Catalog.takeSlots]
    constructor
    · intro h
      obtain ⟨_, hv, h⟩ := Except.bind_eq_ok h
      obtain ⟨⟨others, _⟩, hothers, h⟩ := Except.bind_eq_ok h
      cases h
      obtain ⟨rfl, htype⟩ := ofType_eq_ok.mp hv
      exact ⟨htype, others, hothers, rfl⟩
    · rintro ⟨htype, others, hothers, rfl⟩
      rw [ofType_eq_ok.mpr ⟨rfl, htype⟩, hothers]
      rfl

/-- **The slots taken are the first ones**, and each fits. -/
theorem takeSlots_eq_ok {name : String} {takes : List Take} {slots taken : List (Option Value)}
    {left : Nat} : c.takeSlots name takes slots = .ok (taken, left) ↔
      List.Forall₂ Take.Fits takes taken ∧ ∃ rest, slots = taken ++ rest ∧ left = rest.length := by
  induction takes generalizing slots taken with
  | nil =>
    rw [Catalog.takeSlots, Except.ok.injEq, Prod.mk.injEq]
    constructor
    · rintro ⟨rfl, rfl⟩
      exact ⟨.nil, slots, rfl, rfl⟩
    · rintro ⟨h, rest, rfl, rfl⟩
      cases h
      exact ⟨rfl, rfl⟩
  | cons t ts ih =>
    constructor
    · intro h
      cases slots with
      | nil => cases h
      | cons slot slots =>
        obtain ⟨hfit, others, hothers, rfl⟩ := takeSlots_cons.mp h
        obtain ⟨hfits, rest, rfl, hleft⟩ := ih.mp hothers
        exact ⟨.cons hfit hfits, rest, rfl, hleft⟩
    · rintro ⟨h, rest, rfl, hleft⟩
      cases h with
      | cons hfit hfits =>
        exact takeSlots_cons.mpr ⟨hfit, _, ih.mpr ⟨hfits, rest, rfl, hleft⟩, rfl⟩

/-! ## 2. Entries in order -/

theorem insertNew_perm {cmp : Value → Value → Ordering} {k v : Value}
    {es es' : List (Value × Value)} (h : insertNew cmp k v es = some es') :
    es'.Perm ((k, v) :: es) := by
  induction es generalizing es' with
  | nil =>
    cases h
    exact .refl _
  | cons e es ih =>
    rw [insertNew] at h
    split at h
    · cases h
      exact .refl _
    · cases h
    · obtain ⟨es'', hi, rfl⟩ := Option.map_eq_some_iff.mp h
      exact ((ih hi).cons e).trans (.swap (k, v) e es)

/-- **Ordering moves entries, and loses none.** -/
theorem orderEntries_perm {cmp : Value → Value → Ordering} {position : Nat}
    {done es es' : List (Value × Value)} (h : orderEntries cmp position done es = .ok es') :
    es'.Perm (es ++ done) := by
  induction es generalizing position done with
  | nil =>
    cases h
    exact .refl _
  | cons e es ih =>
    rw [orderEntries] at h
    split at h
    · rename_i done' hi
      have hperm := (ih h).trans ((insertNew_perm hi).append_left es)
      exact hperm.trans List.perm_middle
    · cases h

/-! ## 3. Values -/

/-- What becomes of the content of an item in a value of a type, with so many slots left over:
    scalars are taken in, slots from the first one on, and an ordered map puts its entries in
    order. -/
inductive Content.TakenAs (t : TypeExpr) : Content Value → Nat → Content Value → Prop where
  | scalar {x y : Scalar} : TakenAs t (.scalar x) 0 (.scalar y)
  | same {content : Content Value} : TakenAs t content 0 content
  | slots {taken rest : List (Option Value)} :
      TakenAs t (.fields (taken ++ rest)) rest.length (.fields taken)
  | ordered {key value : TypeExpr} {es es' : List (Value × Value)} (ht : t = .map key value)
      (hp : es'.Perm es) : TakenAs t (.entries es) 0 (.entries es')

/-- The parts that are taken are parts of the item, all but those in the slots that are left
    over. -/
theorem Content.TakenAs.parts {t : TypeExpr} {content taken : Content Value} {untaken : Nat}
    (h : content.TakenAs t untaken taken) :
    ∃ rest : List Value, content.parts.Perm (taken.parts ++ rest) ∧ rest.length ≤ untaken := by
  cases h with
  | scalar => exact ⟨[], .refl _, Nat.le_refl 0⟩
  | same => exact ⟨[], .of_eq (List.append_nil _).symm, Nat.le_refl 0⟩
  | slots =>
    rename_i taken rest
    exact ⟨rest.filterMap id, .of_eq List.filterMap_append, List.length_filterMap_le _ _⟩
  | ordered _ hp =>
    refine ⟨[], ?_, Nat.le_refl 0⟩
    rw [List.append_nil]
    exact hp.symm.flatMap_right fun e => [e.1, e.2]

/-- Of slots the first ones are taken. -/
theorem Content.TakenAs.of_fields {t : TypeExpr} {slots : List (Option Value)} {untaken : Nat}
    {content : Content Value} (h : (Content.fields slots).TakenAs t untaken content) :
    ∃ taken rest, slots = taken ++ rest ∧ content = .fields taken := by
  cases h with
  | same => exact ⟨slots, [], (List.append_nil _).symm, rfl⟩
  | slots => exact ⟨_, _, rfl, rfl⟩

/-- Entries are taken in the order in which they stand, or put in order. -/
theorem Content.TakenAs.of_entries {t : TypeExpr} {es : List (Value × Value)} {untaken : Nat}
    {content : Content Value} (h : (Content.entries es).TakenAs t untaken content) :
    ∃ es', content = .entries es' ∧ es'.Perm es ∧ (es' = es ∨ ∃ key value, t = .map key value) := by
  cases h with
  | same => exact ⟨es, rfl, .refl _, .inl rfl⟩
  | ordered ht hp => exact ⟨_, rfl, hp, .inr ⟨_, _, ht⟩⟩

/-- A value that is built from the parts of an item: its content is taken from that of the item, and
    a type that may keep bytes keeps the ones it is handed. -/
structure BuiltFrom (t : TypeExpr) (p : Parts) (v : Value) : Prop where
  type : v.type = t
  content : p.content.TakenAs t v.notes.untaken v.content
  raw : t = .embedded ∨ (∃ name, t = .named name) → v.notes.raw = p.raw

theorem BuiltFrom.parts {t : TypeExpr} {p : Parts} {v : Value} (h : BuiltFrom t p v) :
    ∃ rest, p.content.parts.Perm (v.content.parts ++ rest) := by
  obtain ⟨rest, hperm, _⟩ := h.content.parts
  exact ⟨rest, hperm⟩

/-- A value that left no slot has all parts of the item. -/
theorem BuiltFrom.whole {t : TypeExpr} {p : Parts} {v : Value} (h : BuiltFrom t p v)
    (hwhole : v.notes.untaken = 0) : p.content.parts.Perm v.content.parts := by
  obtain ⟨rest, hperm, hrest⟩ := h.content.parts
  obtain rfl := List.eq_nil_of_length_eq_zero (Nat.le_zero.mp (hrest.trans hwhole.le))
  rwa [List.append_nil] at hperm

theorem scalar_takenAs {t : TypeExpr} {p : Parts} {form : ScalarForm} {x : Scalar}
    (h : p.scalar form = .ok x) : p.content.TakenAs t 0 (.scalar x) := by
  unfold Parts.scalar at h
  split at h
  · rename_i y hc
    rw [hc]
    exact .scalar
  · cases h

/-- What is asked for is taken as it is. -/
theorem Content.TakenAs.of_eq {t : TypeExpr} {content content' : Content Value}
    (h : content = content') : content.TakenAs t 0 content' := h ▸ .same

/-- **What is asked for is taken from the content of the item.** -/
theorem contentOf_takenAs {t : TypeExpr} {s : Shape} {conversion : Conversion} {p : Parts}
    {asks : Asks} {content : Content Value} {untaken : Nat}
    (h : c.contentOf s conversion p asks = .ok (content, untaken)) :
    p.content.TakenAs t untaken content := by
  cases asks with
  | byShape | scalar =>
    obtain ⟨x, hx, h⟩ := Except.bind_eq_ok h
    cases h
    exact scalar_takenAs hx
  | variant accepted =>
    obtain ⟨v, hv, h⟩ := Except.bind_eq_ok h
    cases h
    refine .of_eq ?_
    unfold Parts.variant at hv
    split at hv
    · rename_i hc
      cases hv
      exact hc
    · rename_i hc
      split at hv
      · cases hv
        exact hc
      · cases hv
    · cases hv
  | items item =>
    obtain ⟨vs, hv, h⟩ := Except.bind_eq_ok h
    cases h
    exact .of_eq (items_eq_ok.mp hv).1
  | entries key value =>
    obtain ⟨es, hv, h⟩ := Except.bind_eq_ok h
    cases h
    exact .of_eq (entries_eq_ok.mp hv).1
  | fields takes =>
    obtain ⟨⟨taken, left⟩, hv, h⟩ := Except.bind_eq_ok h
    cases h
    unfold Catalog.fields at hv
    split at hv
    · rename_i slots hc
      obtain ⟨_, rest, rfl, rfl⟩ := takeSlots_eq_ok.mp hv
      rw [hc]
      exact .slots
    · cases hv

/-- **A value of a declared type is built of the content that the type asks for**, unless the type
    rejects all values. -/
theorem construct_named_iff {name : String} {s : Shape} {p : Parts} {v : Value} :
    c.construct (.named name) s p = .ok v ↔ (c.declared name).conversion.reject = none ∧
      ∃ content untaken, c.contentOf s (c.declared name).conversion p
        (s.asksFor (c.declared name).conversion) = .ok (content, untaken) ∧
      v = .node (.named name) content {
        alternative := p.alternative
        observed := p.style
        emit := if (c.declared name).conversion.keepsStyle then some p.style else none
        raw := p.raw
        untaken } := by
  rw [Catalog.construct, Catalog.constructDeclared]
  cases hreject : (c.declared name).conversion.reject with
  | some reason =>
    constructor
    · intro h
      cases h
    · rintro ⟨h, _⟩
      cases h
  | none =>
    constructor
    · intro h
      obtain ⟨⟨content, untaken⟩, hcontent, h⟩ := Except.bind_eq_ok h
      cases h
      exact ⟨rfl, content, untaken, hcontent, rfl⟩
    · rintro ⟨-, content, untaken, hcontent, rfl⟩
      show (c.contentOf s _ p _ >>= _) = _
      rw [hcontent]
      rfl

theorem constructScalar_built {t : TypeExpr} {form : ScalarForm} {p : Parts} {v : Value}
    (h : Catalog.constructScalar t form p = .ok v)
    (ht : ¬ (t = .embedded ∨ ∃ name, t = .named name)) : BuiltFrom t p v := by
  obtain ⟨x, hx, h⟩ := Except.bind_eq_ok h
  cases h
  exact ⟨rfl, scalar_takenAs hx, fun h => absurd h ht⟩

theorem items_built {t item : TypeExpr} {p : Parts} {vs : List Value} {notes : Notes}
    (h : c.items item p = .ok vs) (hn : notes.untaken = 0)
    (ht : ¬ (t = .embedded ∨ ∃ name, t = .named name)) :
    BuiltFrom t p (.node t (.items vs) notes) := by
  refine ⟨rfl, ?_, fun h => absurd h ht⟩
  have htaken : p.content.TakenAs t 0 (.items vs) := .of_eq (items_eq_ok.mp h).1
  rwa [← hn] at htaken

/-- **What is built is built from the parts of the item.** -/
theorem construct_built {t : TypeExpr} {s : Shape} {p : Parts} {v : Value}
    (h : c.construct t s p = .ok v) : BuiltFrom t p v := by
  cases t with
  | bool | uint64 | uint32 | int64 | text | bytes | null =>
    exact constructScalar_built h (by simp)
  | embedded =>
    rw [Catalog.construct] at h
    split at h
    · rename_i hc
      cases h
      exact ⟨rfl, .of_eq hc, fun _ => rfl⟩
    · cases h
    · cases h
  | list item | framedList item | taggedSet item =>
    obtain ⟨vs, hv, h⟩ := Except.bind_eq_ok h
    cases h
    exact items_built hv rfl (by simp)
  | map key value =>
    obtain ⟨es, hv, h⟩ := Except.bind_eq_ok h
    split at h
    · rename_i ordered ho
      cases h
      refine ⟨rfl, ?_, by simp⟩
      have hperm := orderEntries_perm ho
      rw [List.append_nil] at hperm
      rw [(entries_eq_ok.mp hv).1]
      exact .ordered rfl hperm
    · cases h
  | anyConstructor field =>
    rw [Catalog.construct] at h
    split at h
    · obtain ⟨vs, hv, h⟩ := Except.bind_eq_ok h
      cases h
      exact items_built hv rfl (by simp)
    · cases h
  | named name =>
    obtain ⟨-, content, untaken, hc, rfl⟩ := construct_named_iff.mp h
    exact ⟨rfl, contentOf_takenAs hc, fun _ => rfl⟩

end CborSchema
