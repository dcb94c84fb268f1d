import CborSchema.Catalog
import CborSchema.Proofs.Decode.Construct

/-!
# Shapes that passed their checks

What a shape that resolves is known to satisfy, one statement for each thing that a reader or writer
relies on.

* `resolve_check` -- a type resolves to a shape that passed its checks;
* `Positioned`, `Shape.HasMap` -- fields in order, the optional ones at the end, and fields under
  different keys, none of them nullable;
* `check_scalar`, `check_list`, `check_map`, `check_constructor`, `check_union` -- what the checks
  leave of the facets of each kind.
-/

namespace CborSchema

variable {s : Shape} {t : TypeExpr}

/-! ## 1. Steps of a check -/

theorem refuse_bind_eq_ok {facet : Facet} {declared : Bool} {x : Except ConfigError Unit}
    (h : (s.refuse facet declared >>= fun _ => x) = .ok ()) : declared = false ∧ x = .ok () := by
  cases declared with
  | true => cases h
  | false => exact ⟨rfl, h⟩

theorem refuse_eq_ok {facet : Facet} {declared : Bool} (h : s.refuse facet declared = .ok ()) :
    declared = false := by
  cases declared with
  | true => cases h
  | false => rfl

/-- What is checked for the kind of a shape alone. -/
def Shape.checkKind (s : Shape) (self : TypeExpr) : Except ConfigError Unit :=
  match s.kind with
  | .scalar p => s.checkScalar p
  | .list => s.checkScalarFacets >>= fun _ => s.checkArrayLayout
  | .map => s.checkScalarFacets >>= fun _ => s.checkMapLayout
  | .constructor =>
    match s.tag with
    | some tag => .error (.tagConflict s.name tag.number)
    | none => s.checkScalarFacets >>= fun _ => s.checkArrayLayout
  | .union => s.checkUnion self

/-- What every checked shape satisfies, whatever its kind. -/
structure Shape.Settled (s : Shape) (t : TypeExpr) : Prop where
  chunkSize : s.chunkSize ≠ some 0
  alternative : s.kind ≠ .constructor → s.alternative = none
  candidates : s.kind ≠ .union → s.candidates = []
  ofKind : s.checkKind t = .ok ()

theorem check_settled (h : s.check t = .ok ()) : s.Settled t := by
  rw [Shape.check] at h
  split at h
  · cases h
  · rename_i hchunk
    obtain ⟨halt, h⟩ := refuse_bind_eq_ok h
    obtain ⟨hcand, h⟩ := refuse_bind_eq_ok h
    refine ⟨hchunk, fun hk => ?_, fun hk => ?_, ?_⟩
    · simpa [hk] using halt
    · simpa [hk] using hcand
    · rw [Shape.checkKind]
      cases hk : s.kind with
      | scalar p => simpa only [hk] using h
      | list => simpa only [hk] using h
      | map => simpa only [hk] using h
      | constructor =>
        simp only [hk] at h
        cases ht : s.tag with
        | none => simpa only [ht] using h
        | some tag =>
          simp only [ht] at h
          cases h
      | union => simpa only [hk] using h

/-- **A type resolves to a shape that passed its checks.** -/
theorem resolve_check {c : Catalog} (h : c.resolve t = .ok s) :
    s.check t = .ok () ∧ s.name = c.printName t := by
  obtain ⟨schema, _, h⟩ := Except.bind_eq_ok h
  obtain ⟨s', hs, h⟩ := Except.bind_eq_ok h
  obtain ⟨_, hc, h⟩ := Except.bind_eq_ok h
  cases h
  refine ⟨hc, ?_⟩
  unfold Shape.ofSchema at hs
  split at hs
  · cases hs
  · cases hs
    rfl

/-- **Only embedded items and declared types keep the bytes they are read from.** -/
theorem resolve_preserveRaw {c : Catalog} (h : c.resolve t = .ok s) (hp : s.preserveRaw = true) :
    t = .embedded ∨ ∃ name, t = .named name := by
  obtain ⟨schema, hi, h⟩ := Except.bind_eq_ok h
  obtain ⟨s', hs, h⟩ := Except.bind_eq_ok h
  obtain ⟨_, _, h⟩ := Except.bind_eq_ok h
  cases h
  cases t with
  | embedded => exact .inl rfl
  | named name => exact .inr ⟨name, rfl⟩
  | _ =>
    cases hi
    cases hs
    cases hp

/-! ## 2. Facets -/

/-- The facets of a scalar that passed its checks. -/
theorem check_scalar {p : Primitive} (h : s.check t = .ok ()) (hk : s.kind = .scalar p) :
    s.layout = none ∧ (p.isString = false → s.size = none ∧ s.length = .either) ∧
      (p ≠ .uint → p ≠ .int → s.headWidth = .minimal) := by
  have h := (check_settled h).ofKind
  rw [Shape.checkKind, hk] at h
  dsimp only at h
  rw [Shape.checkScalar] at h
  split at h
  · cases h
  · rename_i hl
    obtain ⟨_, h⟩ := refuse_bind_eq_ok h
    obtain ⟨hsize, h⟩ := refuse_bind_eq_ok h
    obtain ⟨_, h⟩ := refuse_bind_eq_ok h
    obtain ⟨hlength, h⟩ := refuse_bind_eq_ok h
    have hwidth := refuse_eq_ok h
    refine ⟨Option.eq_none_iff_forall_ne_some.mpr hl, fun hp => ⟨?_, ?_⟩, fun hu hi => ?_⟩
    · simpa [hp] using hsize
    · simpa [hp] using hlength
    · simpa [hu, hi] using hwidth

/-- The facets of a union that passed its checks. -/
theorem check_union_facets (h : s.check t = .ok ()) (hk : s.kind = .union) : s.layout = none ∧
    s.tag = none ∧ s.preserveRaw = false ∧ s.candidates ≠ [] ∧ t ∉ s.candidates := by
  have h := (check_settled h).ofKind
  rw [Shape.checkKind, hk] at h
  dsimp only at h
  rw [Shape.checkUnion] at h
  split at h
  · cases h
  · rename_i hempty
    dsimp only at h
    split at h
    · cases h
    · rename_i hself
      obtain ⟨htag, h⟩ := refuse_bind_eq_ok h
      split at h
      · cases h
      · rename_i hl
        obtain ⟨_, h⟩ := refuse_bind_eq_ok h
        obtain ⟨hraw, h⟩ := refuse_bind_eq_ok h
        exact ⟨Option.eq_none_iff_forall_ne_some.mpr hl, by simpa using htag, hraw,
          by simpa using hempty, by simpa using hself⟩

/-- **A union that passed its checks has no tag and keeps no bytes.** -/
theorem check_union (h : s.check t = .ok ()) (hk : s.kind = .union) :
    s.tag = none ∧ s.preserveRaw = false ∧ s.candidates ≠ [] ∧ t ∉ s.candidates :=
  (check_union_facets h hk).2

/-! ## 3. Fields -/

/-- Fields in order: the optional ones at the end. -/
inductive Positioned : List Field → Prop where
  | required {f : Field} {fs : List Field} (hf : f.presence ≠ .optional) (hs : Positioned fs) :
      Positioned (f :: fs)
  | optional {fs : List Field} (hs : ∀ f ∈ fs, f.presence = .optional) : Positioned fs

theorem checkPositions_optional {name : String} {position : Nat} {before : List FieldKey}
    {key : FieldKey} {fields : List Field}
    (h : Shape.checkPositions name position before (some key) fields = .ok ()) :
    ∀ f ∈ fields, f.presence = .optional := by
  induction fields generalizing position before with
  | nil => simp
  | cons f fs ih =>
    unfold Shape.checkPositions at h
    split at h
    · split at h <;> cases h
    · split at h
      · rename_i hnone
        cases hnone
      · rename_i hf hkey
        cases hkey
        exact List.forall_mem_cons.mpr ⟨hf, ih h⟩
      · cases h
      · rename_i hnone _
        cases hnone

theorem checkPositions_positioned {name : String} {position : Nat} {before : List FieldKey}
    {fields : List Field} (h : Shape.checkPositions name position before none fields = .ok ()) :
    Positioned fields := by
  induction fields generalizing position before with
  | nil => exact .optional (by simp)
  | cons f fs ih =>
    unfold Shape.checkPositions at h
    split at h
    · split at h <;> cases h
    · split at h
      · rename_i hf _
        exact .optional (List.forall_mem_cons.mpr ⟨hf, checkPositions_optional h⟩)
      · rename_i hnone
        cases hnone
      · cases h
      · rename_i _ hf
        exact .required (fun ho => hf ho) (ih h)

/-- The layout of an array: items, or fields in order. -/
def Shape.HasArray (s : Shape) : Prop :=
  (∃ item, s.layout = some (.items item)) ∨
    ∃ fields, s.layout = some (.fields fields) ∧ Positioned fields

theorem checkArrayLayout_eq_ok (h : s.checkArrayLayout = .ok ()) : s.HasArray := by
  rw [Shape.checkArrayLayout] at h
  split at h
  · rename_i fields hl
    exact .inr ⟨fields, hl, checkPositions_positioned h⟩
  · rename_i item hl
    exact .inl ⟨item, hl⟩
  · cases h
  · cases h

theorem checkKeys_eq_ok {before : List FieldKey} {fields : List Field}
    (h : s.checkKeys before fields = .ok ()) (hb : before.Nodup) :
    (before ++ fields.map Field.key).Nodup ∧ ∀ f ∈ fields, f.presence ≠ .nullable := by
  induction fields generalizing before with
  | nil => simpa using hb
  | cons f fs ih =>
    rw [Shape.checkKeys] at h
    split at h
    · cases h
    · rename_i hnew
      split at h
      · cases h
      · rename_i hnull
        have hb' : (before ++ [f.key]).Nodup := by
          refine List.nodup_append.mpr ⟨hb, by simp, fun a ha b hb => ?_⟩
          rw [List.mem_singleton.mp hb]
          rintro rfl
          exact hnew (by simpa using ha)
        obtain ⟨hkeys, hall⟩ := ih h hb'
        rw [List.append_assoc] at hkeys
        exact ⟨hkeys, List.forall_mem_cons.mpr ⟨hnull, hall⟩⟩

/-- The layout of a map: entries, or fields under different keys, none of them nullable. -/
def Shape.HasMap (s : Shape) : Prop :=
  (∃ key value, s.layout = some (.entries key value)) ∨
    ∃ fields, s.layout = some (.fields fields) ∧ (fields.map Field.key).Nodup ∧
      ∀ f ∈ fields, f.presence ≠ .nullable

theorem checkMapLayout_eq_ok (h : s.checkMapLayout = .ok ()) : s.HasMap := by
  rw [Shape.checkMapLayout] at h
  split at h
  · rename_i fields hl
    rw [Shape.checkKeyed] at h
    split at h
    · cases h
    · obtain ⟨hkeys, hall⟩ := checkKeys_eq_ok h .nil
      exact .inr ⟨fields, hl, hkeys, hall⟩
  · rename_i key value hl
    exact .inl ⟨key, value, hl⟩
  · cases h
  · cases h

/-! ## 4. Collections -/

theorem check_list (h : s.check t = .ok ()) (hk : s.kind = .list) : s.HasArray := by
  have h := (check_settled h).ofKind
  rw [Shape.checkKind, hk] at h
  obtain ⟨_, _, h⟩ := Except.bind_eq_ok h
  exact checkArrayLayout_eq_ok h

theorem check_map (h : s.check t = .ok ()) (hk : s.kind = .map) : s.HasMap := by
  have h := (check_settled h).ofKind
  rw [Shape.checkKind, hk] at h
  obtain ⟨_, _, h⟩ := Except.bind_eq_ok h
  exact checkMapLayout_eq_ok h

theorem check_constructor (h : s.check t = .ok ()) (hk : s.kind = .constructor) :
    s.tag = none ∧ s.HasArray := by
  have h := (check_settled h).ofKind
  rw [Shape.checkKind, hk] at h
  dsimp only at h
  split at h
  · cases h
  · rename_i htag
    obtain ⟨_, _, h⟩ := Except.bind_eq_ok h
    exact ⟨htag, checkArrayLayout_eq_ok h⟩

/-- **The keys of the fields of a map differ.** -/
theorem check_keys (h : s.check t = .ok ()) (hk : s.kind = .map) :
    (s.fields.map Field.key).Nodup := by
  rw [Shape.fields]
  rcases check_map h hk with ⟨key, value, hl⟩ | ⟨fields, hl, hn, _⟩
  · rw [hl]
    exact .nil
  · rw [hl]
    exact hn

end CborSchema
