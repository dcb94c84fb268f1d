import CborSchema.Proofs.Decode.Values

/-!
# What a value takes from its item

* `KindAt.scalarAfter` -- a scalar content is that of a scalar kind;
* `Catalog.formOf` -- the form in which a value of a type takes a scalar in;
* `construct_scalar` -- a scalar in a value is the scalar of the item, in that form;
* `take_eq_ok`, `textPayload_of_readText` -- all but signed integers are taken in as they are.
-/

namespace CborSchema

variable {c : Catalog} {s : Shape} {t : TypeExpr} {p : Parts} {v : Value} {x : Scalar}

/-! ## 1. Items by kind -/

/-- A scalar is read by a scalar kind alone. -/
theorem Shape.KindAt.scalarAfter {r : Reading} {u : Bytes} (h : s.KindAt r p u)
    (hx : p.content = .scalar x) : ∃ kind head front rest, s.kind = .scalar kind ∧
      u = front ++ rest ∧ s.ScalarAfter r head kind x rest := by
  have harray : ∀ {p : Parts} {u : Bytes}, s.ArrayAt r p u → p.content ≠ .scalar x := by
    intro p u h hx
    cases h with
    | items _ _ _ _ => cases hx
    | fields _ _ _ _ _ _ => cases hx
  cases h with
  | scalar hk h =>
    cases h with
    | mk hh hs =>
      cases hx
      exact ⟨_, _, _, _, hk, rfl, hs⟩
  | list hk h => exact absurd hx (harray h)
  | map hk h =>
    cases h with
    | entries _ _ _ _ _ => cases hx
    | fields _ _ _ _ _ => cases hx
  | constructor hk h =>
    cases h with
    | mk _ _ h => exact (harray h hx).elim
  | union hk h =>
    cases h with
    | mk _ _ => cases hx

/-! ## 2. Scalars -/

/-- The form in which a value of a type takes a scalar in. -/
def Catalog.formOf (c : Catalog) (s : Shape) : TypeExpr → ScalarForm
  | .bool => .bool
  | .uint64 => .uint64
  | .uint32 => .uint32
  | .int64 => .int64
  | .text => .text
  | .bytes => .bytes
  | .embedded => .bytes
  | .null => .null
  | .named name => s.scalarForm (c.declared name).conversion
  | _ => .any

theorem scalar_eq_ok {form : ScalarForm} :
    p.scalar form = .ok x ↔ ∃ y, p.content = .scalar y ∧ form.take y = .ok x := by
  rw [Parts.scalar]
  split
  · rename_i y hy
    constructor
    · exact fun h => ⟨y, hy, h⟩
    · rintro ⟨y', hy', h⟩
      rw [hy, Content.scalar.injEq] at hy'
      exact hy' ▸ h
  · rename_i hno
    exact ⟨fun h => (by cases h), fun ⟨y, hy, _⟩ => absurd hy (hno y)⟩

theorem constructScalar_eq_ok {form : ScalarForm} (h : Catalog.constructScalar t form p = .ok v) :
    ∃ y x, p.content = .scalar y ∧ form.take y = .ok x ∧ v = .ofScalar t x := by
  obtain ⟨x, hx, h⟩ := Except.bind_eq_ok h
  cases h
  obtain ⟨y, hy, htake⟩ := scalar_eq_ok.mp hx
  exact ⟨y, x, hy, htake, rfl⟩

theorem contentOf_scalar_eq_ok {conversion : Conversion} {asks : Asks} {untaken : Nat}
    (h : c.contentOf s conversion p asks = .ok (.scalar x, untaken)) :
    ∃ y, p.content = .scalar y ∧ (s.scalarForm conversion).take y = .ok x := by
  cases asks with
  | byShape | scalar =>
    obtain ⟨x', hx, h⟩ := Except.bind_eq_ok h
    cases h
    exact scalar_eq_ok.mp hx
  | variant accepted =>
    obtain ⟨_, _, h⟩ := Except.bind_eq_ok h
    cases h
  | items item =>
    obtain ⟨_, _, h⟩ := Except.bind_eq_ok h
    cases h
  | entries key value =>
    obtain ⟨_, _, h⟩ := Except.bind_eq_ok h
    cases h
  | fields takes =>
    obtain ⟨_, _, h⟩ := Except.bind_eq_ok h
    cases h

/-- **A scalar in a value is the scalar of the item**, in the form of the type. -/
theorem construct_scalar (h : c.construct t s p = .ok v) (hx : v.content = .scalar x) :
    ∃ y, p.content = .scalar y ∧ (c.formOf s t).take y = .ok x := by
  have hplain : ∀ {form : ScalarForm}, Catalog.constructScalar t form p = .ok v →
      ∃ y, p.content = .scalar y ∧ form.take y = .ok x := by
    intro form h
    obtain ⟨y, x', hy, htake, rfl⟩ := constructScalar_eq_ok h
    cases hx
    exact ⟨y, hy, htake⟩
  cases t with
  | bool | uint64 | uint32 | int64 | text | bytes | null => exact hplain h
  | embedded =>
    rw [Catalog.construct] at h
    split at h
    · rename_i payload hy
      cases h
      cases hx
      exact ⟨_, hy, rfl⟩
    · cases h
    · cases h
  | list item | framedList item | taggedSet item =>
    obtain ⟨vs, _, h⟩ := Except.bind_eq_ok h
    cases h
    cases hx
  | map key value =>
    obtain ⟨es, _, h⟩ := Except.bind_eq_ok h
    split at h
    · cases h
      cases hx
    · cases h
  | anyConstructor field =>
    rw [Catalog.construct] at h
    split at h
    · obtain ⟨vs, _, h⟩ := Except.bind_eq_ok h
      cases h
      cases hx
    · cases h
  | named name =>
    obtain ⟨-, content, untaken, hc, rfl⟩ := construct_named_iff.mp h
    have hx : content = .scalar x := hx
    subst hx
    exact contentOf_scalar_eq_ok hc

/-- A scalar is taken in as it is, but for a signed integer. -/
theorem take_eq_ok {form : ScalarForm} {y : Scalar} (h : form.take y = .ok x) :
    x = y ∨ ∃ n, x = .int n := by
  unfold ScalarForm.take at h
  grind

/-- A text has the payload it was decoded from. -/
theorem textPayload_of_decodeText {payload : Bytes} {text : String}
    (h : decodeText payload = some text) : textPayload text = payload := by
  rw [decodeText, String.fromUTF8?] at h
  split at h
  · cases h
    simp [textPayload, String.fromUTF8]
  · cases h

theorem textPayload_of_readText {payload : Bytes} {text name : String}
    (h : readText payload name = .ok text) : textPayload text = payload := by
  rw [readText] at h
  split at h
  · rename_i hd
    cases h
    exact textPayload_of_decodeText hd
  · cases h

end CborSchema
