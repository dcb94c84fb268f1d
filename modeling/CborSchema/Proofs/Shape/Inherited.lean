import CborSchema.Proofs.Shape.Checked

/-!
# Inherited facets

What a schema takes over from its ancestors, whatever the chain of parents looks like, one that runs
in a circle included.

* `Catalog.ancestor` -- the types up the chain of parents, one after the other;
* `Schema.IsFacet` -- the facets that are taken over; `IsFacet.merge` -- how one merge settles each;
* `Schema.merge_assoc`, `Schema.foldl_merge` -- a chain may be merged from either end;
* `Catalog.inherit_chain` -- the loop over the chain merges each ancestor once, or runs out of its
  budget;
* `Catalog.nearest_declaration_is_inherited` -- **the nearest schema that declares a facet has its
  way, and only a chain of more than 16 ancestors is refused for its length.**
-/

namespace CborSchema

variable {c : Catalog} {t u p : TypeExpr}

/-! ## 1. Facets -/

/-- The facets of a schema. The parent is none of them: it says where the others come from. -/
inductive Schema.IsFacet : {α : Type} → (Schema → Option α) → Prop where
  | kind : IsFacet Schema.kind
  | tag : IsFacet Schema.tag
  | alternative : IsFacet Schema.alternative
  | length : IsFacet Schema.length
  | layout : IsFacet Schema.layout
  | candidates : IsFacet Schema.candidates
  | preserveRaw : IsFacet Schema.preserveRaw
  | extensible : IsFacet Schema.extensible
  | size : IsFacet Schema.size
  | chunkSize : IsFacet Schema.chunkSize
  | headWidth : IsFacet Schema.headWidth

namespace Schema

variable {α : Type} {facet : Schema → Option α}

/-- **A merge keeps the facets of the schema and fills the others from the parent.** -/
theorem IsFacet.merge (hf : IsFacet facet) (s parent : Schema) :
    facet (s.merge parent) = (facet s).or (facet parent) := by
  cases hf <;> rfl

/-- **Merging is associative**, the parent that is left to merge next included. -/
theorem merge_assoc (s s' s'' : Schema) : (s.merge s').merge s'' = s.merge (s'.merge s'') := by
  simp only [merge, Option.or_assoc]

/-- A chain merged from its far end: the ancestors first, and the schema itself last. -/
def mergeUp (s : Schema) : List Schema → Schema
  | [] => s
  | parent :: others => s.merge (mergeUp parent others)

/-- **A chain may be merged from either end.** -/
theorem foldl_merge (s : Schema) (ancestors : List Schema) :
    ancestors.foldl merge s = s.mergeUp ancestors := by
  -- a schema in front of the chain may be merged before it or after it
  have hfront : ∀ (ancestors : List Schema) (s parent : Schema),
      (s.merge parent).mergeUp ancestors = s.merge (parent.mergeUp ancestors) := by
    intro ancestors s parent
    cases ancestors with
    | nil => rfl
    | cons next others => exact merge_assoc s parent _
  induction ancestors generalizing s with
  | nil => rfl
  | cons parent others ih =>
    rw [List.foldl_cons, ih, hfront]
    rfl

/-- The first of a chain that declares a facet has its way. -/
theorem IsFacet.foldl_merge (hf : IsFacet facet) (s : Schema) (ancestors : List Schema) :
    facet (ancestors.foldl Schema.merge s) = (s :: ancestors).findSome? facet := by
  induction ancestors generalizing s with
  | nil =>
    rw [List.foldl_nil, List.findSome?_cons, List.findSome?_nil]
    cases facet s <;> rfl
  | cons parent others ih =>
    rw [List.foldl_cons, ih, List.findSome?_cons, hf.merge, List.findSome?_cons,
      List.findSome?_cons]
    cases facet s <;> rfl

end Schema

/-! ## 2. Chains of parents -/

/-- The type that many steps up the chain of parents; none behind its end. -/
def Catalog.ancestor (c : Catalog) (t : TypeExpr) : Nat → Option TypeExpr
  | 0 => some t
  | k + 1 => (c.ancestor t k).bind fun u => (c.schema u).parent

namespace Catalog

theorem ancestor_add (i k : Nat) : c.ancestor t (i + k) = (c.ancestor t i).bind fun u =>
    c.ancestor u k := by
  induction k with
  | zero => exact (Option.bind_fun_some _).symm
  | succ k ih =>
    show (c.ancestor t (i + k)).bind _ = _
    rw [ih, Option.bind_assoc]
    rfl

/-- The first step up leads to the parent. -/
theorem ancestor_succ (c : Catalog) (t : TypeExpr) (k : Nat) :
    c.ancestor t (k + 1) = (c.schema t).parent.bind fun parent => c.ancestor parent k := by
  rw [Nat.add_comm, ancestor_add]
  rfl

theorem ancestor_of_le {i k : Nat} (hik : i ≤ k) (hk : c.ancestor t k ≠ none) :
    c.ancestor t i ≠ none := by
  intro hi
  obtain ⟨m, rfl⟩ := Nat.exists_eq_add_of_le hik
  rw [ancestor_add, hi] at hk
  exact hk rfl

/-- **A chain that comes back to a type has no end.** -/
theorem ancestor_of_circle {i j : Nat} (hij : i < j) (hsame : c.ancestor t i = c.ancestor t j)
    (hj : c.ancestor t j ≠ none) (k : Nat) : c.ancestor t k ≠ none := by
  induction k using Nat.strong_induction_on with
  | _ k ih =>
    rcases Nat.lt_or_ge j k with hlt | hle
    · obtain ⟨m, rfl⟩ := Nat.exists_eq_add_of_lt hlt
      have hround := ih (i + (m + 1)) (by omega)
      rw [Nat.add_assoc, ancestor_add, ← hsame, ← ancestor_add]
      exact hround
    · exact ancestor_of_le hle hj

/-- The ancestors of a type in a row, nearest first and each of them once. -/
def Ancestors (c : Catalog) (t : TypeExpr) (us : List TypeExpr) : Prop :=
  ∀ k, us[k]? = c.ancestor t (k + 1)

theorem ancestors_nil (h : (c.schema t).parent = none) : c.Ancestors t [] := by
  intro k
  rw [ancestor_succ, h]
  rfl

theorem Ancestors.cons (h : (c.schema t).parent = some p) {us : List TypeExpr}
    (hus : c.Ancestors p us) : c.Ancestors t (p :: us) := by
  intro k
  rw [ancestor_succ, h]
  cases k with
  | zero => rfl
  | succ k => exact hus k

theorem inherit_of_root {name : String} {budget : Nat} {s : Schema} (h : s.parent = none) :
    c.inherit name budget s = .ok s := by
  unfold inherit
  rw [h]

theorem inherit_zero {name : String} {s : Schema} (h : s.parent = some p) :
    c.inherit name 0 s = .error (.inheritanceTooDeep name Limits.ancestors) := by
  unfold inherit
  rw [h]

theorem inherit_succ {name : String} {budget : Nat} {s : Schema} (h : s.parent = some p) :
    c.inherit name (budget + 1) s = c.inherit name budget (s.merge (c.schema p)) := by
  rw [inherit.eq_def]
  dsimp only
  rw [h]

/-- **The loop over the chain merges each ancestor once**, nearest first, if there are no more than
    its budget allows, and is refused else. What was merged before plays no part: the loop goes on
    with the parent that the last merge has left. -/
theorem inherit_chain (name : String) (budget : Nat) {s : Schema}
    (hs : s.parent = (c.schema t).parent) : (c.ancestor t (budget + 1) ≠ none →
      c.inherit name budget s = .error (.inheritanceTooDeep name Limits.ancestors)) ∧
    (c.ancestor t (budget + 1) = none → ∃ us, c.Ancestors t us ∧ us.length ≤ budget ∧
      c.inherit name budget s = .ok ((us.map c.schema).foldl Schema.merge s)) := by
  induction budget generalizing s t with
  | zero =>
    rw [ancestor_succ]
    cases hp : (c.schema t).parent with
    | none => exact ⟨fun h => absurd rfl h, fun _ =>
        ⟨[], ancestors_nil hp, Nat.le_refl 0, inherit_of_root (hs.trans hp)⟩⟩
    | some parent => exact ⟨fun _ => inherit_zero (hs.trans hp), nofun⟩
  | succ budget ih =>
    rw [ancestor_succ]
    cases hp : (c.schema t).parent with
    | none => exact ⟨fun h => absurd rfl h, fun _ =>
        ⟨[], ancestors_nil hp, Nat.zero_le _, inherit_of_root (hs.trans hp)⟩⟩
    | some parent =>
      obtain ⟨hdeep, hfits⟩ := ih (t := parent) (s := s.merge (c.schema parent)) rfl
      rw [inherit_succ (hs.trans hp)]
      refine ⟨hdeep, fun h => ?_⟩
      obtain ⟨us, hus, hlen, hmerged⟩ := hfits h
      exact ⟨parent :: us, hus.cons hp, Nat.succ_le_succ hlen, hmerged⟩

end Catalog

/-! ## 3. Other refusals -/

/-- What is never refused for the length of a chain of parents. -/
def EndsInTime {α : Type} (x : Except ConfigError α) : Prop :=
  ∀ name max, x ≠ .error (.inheritanceTooDeep name max)

namespace EndsInTime

theorem ok {α : Type} (a : α) : EndsInTime (.ok a : Except ConfigError α) := by
  simp [EndsInTime]

theorem error {α : Type} {e : ConfigError} (h : ∀ name max, e ≠ .inheritanceTooDeep name max) :
    EndsInTime (.error e : Except ConfigError α) :=
  fun name max he => h name max (Except.error.inj he)

theorem bind {α β : Type} {x : Except ConfigError α} {f : α → Except ConfigError β}
    (hx : EndsInTime x) (hf : ∀ a, EndsInTime (f a)) : EndsInTime (x >>= f) := by
  cases x with
  | ok a => exact hf a
  | error e =>
    intro name max h
    exact hx name max (congrArg Except.error (Except.error.inj h))

variable (s : Shape)

theorem refuse (facet : Facet) (declared : Bool) : EndsInTime (s.refuse facet declared) := by
  cases declared with
  | true => exact error (by simp)
  | false => exact ok ()

theorem ofSchema (name : String) (schema : Schema) : EndsInTime (Shape.ofSchema name schema) := by
  unfold Shape.ofSchema
  split
  · exact error (by simp)
  · exact ok _

theorem checkScalarFacets : EndsInTime s.checkScalarFacets :=
  (refuse s _ _).bind fun _ => (refuse s _ _).bind fun _ => refuse s _ _

theorem checkScalar (kind : Primitive) : EndsInTime (s.checkScalar kind) := by
  unfold Shape.checkScalar
  split
  · exact error (by simp)
  · refine (refuse s _ _).bind fun _ => (refuse s _ _).bind fun _ => (refuse s _ _).bind fun _ => ?_
    exact (refuse s _ _).bind fun _ => refuse s _ _

theorem checkUnion (self : TypeExpr) : EndsInTime (s.checkUnion self) := by
  rw [Shape.checkUnion]
  split
  · exact error (by simp)
  · dsimp only
    split
    · exact error (by simp)
    · refine (refuse s _ _).bind fun _ => ?_
      split
      · exact error (by simp)
      · refine (refuse s _ _).bind fun _ => (refuse s _ _).bind fun _ => ?_
        exact (checkScalarFacets s).bind fun _ => refuse s _ _

theorem checkPositions (name : String) (position : Nat) (before : List FieldKey)
    (firstOptional : Option FieldKey) (fields : List Field) :
    EndsInTime (Shape.checkPositions name position before firstOptional fields) := by
  induction fields generalizing position before firstOptional with
  | nil => exact ok ()
  | cons f fs ih =>
    unfold Shape.checkPositions
    split
    · split <;> exact error (by simp)
    · split
      · exact ih _ _ _
      · exact ih _ _ _
      · exact error (by simp)
      · exact ih _ _ _

theorem checkKeys (before : List FieldKey) (fields : List Field) :
    EndsInTime (s.checkKeys before fields) := by
  induction fields generalizing before with
  | nil => exact ok ()
  | cons f fs ih =>
    rw [Shape.checkKeys]
    split
    · exact error (by simp)
    · split
      · exact error (by simp)
      · exact ih _

theorem checkArrayLayout : EndsInTime s.checkArrayLayout := by
  unfold Shape.checkArrayLayout
  split
  · exact checkPositions _ _ _ _ _
  · exact ok ()
  · exact error (by simp)
  · exact error (by simp)

theorem checkMapLayout : EndsInTime s.checkMapLayout := by
  unfold Shape.checkMapLayout
  split
  · rw [Shape.checkKeyed]
    split
    · exact error (by simp)
    · exact checkKeys s _ _
  · exact ok ()
  · exact error (by simp)
  · exact error (by simp)

/-- **No check of a shape concerns the chain of parents.** -/
theorem check (self : TypeExpr) : EndsInTime (s.check self) := by
  rw [Shape.check]
  split
  · exact error (by simp)
  · refine (refuse s _ _).bind fun _ => (refuse s _ _).bind fun _ => ?_
    cases s.kind with
    | scalar kind => exact checkScalar s kind
    | list => exact (checkScalarFacets s).bind fun _ => checkArrayLayout s
    | map => exact (checkScalarFacets s).bind fun _ => checkMapLayout s
    | constructor =>
      dsimp only
      split
      · exact error (by simp)
      · exact (checkScalarFacets s).bind fun _ => checkArrayLayout s
    | union => exact checkUnion s self

end EndsInTime

/-! ## 4. Resolution -/

/-- The shape that a schema without a parent settles to, checked. -/
def Catalog.settle (c : Catalog) (t : TypeExpr) (s : Schema) : Except ConfigError Shape := do
  let shape ← Shape.ofSchema (c.printName t) s
  shape.check t
  pure shape

theorem Catalog.settle_endsInTime (s : Schema) : EndsInTime (c.settle t s) :=
  (EndsInTime.ofSchema _ s).bind fun shape => (EndsInTime.check shape t).bind fun _ => .ok shape

theorem Catalog.resolve_of_inherit {s : Schema}
    (h : c.inherit (c.printName t) Limits.ancestors (c.schema t) = .ok s) :
    c.resolve t = c.settle t s := by
  rw [resolve, h]
  rfl

/-- **The nearest declaration is inherited, and resolving always ends.** For every type, whatever
    its chain of parents:

    * it is refused for the length of this chain exactly if there is a 17th ancestor, as there is in
      a chain that comes back to a type;
    * else its ancestors stand in a row of at most 16, each is merged once, and each facet that the
      type resolves with is the one that the nearest schema in the row declares, the own one first,
      and open if none does;
    * merging is associative, so a chain is merged from either end to the same schema. -/
theorem Catalog.nearest_declaration_is_inherited (c : Catalog) (t : TypeExpr) :
    (c.resolve t = .error (.inheritanceTooDeep (c.printName t) 16) ↔ c.ancestor t 17 ≠ none) ∧
    (∀ name max, c.resolve t = .error (.inheritanceTooDeep name max) → c.ancestor t 17 ≠ none) ∧
    (∀ i j, i < j → c.ancestor t i = c.ancestor t j → c.ancestor t j ≠ none →
      c.ancestor t 17 ≠ none) ∧
    (c.ancestor t 17 = none → ∃ us s, c.Ancestors t us ∧ us.length ≤ 16 ∧
      c.inherit (c.printName t) Limits.ancestors (c.schema t) = .ok s ∧
      c.resolve t = c.settle t s ∧
      s = (us.map c.schema).foldl Schema.merge (c.schema t) ∧
      s = (c.schema t).mergeUp (us.map c.schema) ∧
      ∀ (α : Type) (facet : Schema → Option α), Schema.IsFacet facet →
        facet s = ((t :: us).map c.schema).findSome? facet) ∧
    ∀ s s' s'' : Schema, (s.merge s').merge s'' = s.merge (s'.merge s'') := by
  obtain ⟨hdeep, hfits⟩ := inherit_chain (c := c) (t := t) (c.printName t) Limits.ancestors rfl
  have hrefused : c.ancestor t 17 ≠ none →
      c.resolve t = .error (.inheritanceTooDeep (c.printName t) 16) := by
    intro h
    rw [resolve, hdeep h]
    rfl
  have hchain : ∀ name max, c.resolve t = .error (.inheritanceTooDeep name max) →
      c.ancestor t 17 ≠ none := by
    intro name max h hnone
    obtain ⟨us, _, _, hmerged⟩ := hfits hnone
    rw [resolve_of_inherit hmerged] at h
    exact settle_endsInTime _ name max h
  refine ⟨⟨hchain _ _, hrefused⟩, hchain, fun i j hij hsame hj => ?_,
    fun hnone => ?_, Schema.merge_assoc⟩
  · exact ancestor_of_circle hij hsame hj 17
  · obtain ⟨us, hus, hlen, hmerged⟩ := hfits hnone
    refine ⟨us, _, hus, hlen, hmerged, resolve_of_inherit hmerged, rfl, Schema.foldl_merge _ _, ?_⟩
    intro α facet hf
    rw [hf.foldl_merge, List.map_cons]

/-- A type that takes its kind from its grandparent and its size from the parent that overrules the
    grandparent's, and one whose parents run in a circle. -/
theorem Catalog.parent_overrules_grandparent :
    let c : Catalog := {
      declared := fun name => { schema :=
        if name = "child" then { parent := some (.named "parent"), preserveRaw := some true }
        else if name = "parent" then { parent := some (.named "grandparent"), size := some 4 }
        else if name = "grandparent" then { kind := some (.scalar .bytes), size := some 8 }
        else { parent := some (.named name) } }
      printName := fun _ => "type" }
    c.ancestor (.named "child") 17 = none ∧
      (∃ s, c.resolve (.named "child") = c.settle (.named "child") s ∧
        s.kind = some (.scalar .bytes) ∧
        s.size = some 4 ∧ s.preserveRaw = some true ∧ s.extensible = none) ∧
      c.ancestor (.named "circle") 0 = c.ancestor (.named "circle") 1 ∧
      c.resolve (.named "circle") = .error (.inheritanceTooDeep "type" 16) := by
  intro c
  have hend : c.ancestor (.named "child") 17 = none := by decide
  have hcircle : c.ancestor (.named "circle") 0 = c.ancestor (.named "circle") 1 := by decide
  obtain ⟨_, _, _, hinherited, _⟩ := c.nearest_declaration_is_inherited (.named "child")
  obtain ⟨us, s, hus, _, _, hresolve, _, _, hfacets⟩ := hinherited hend
  obtain rfl : us = [.named "parent", .named "grandparent"] := by
    refine List.ext_getElem? fun k => ?_
    rw [hus k]
    match k with
    | 0 => rfl
    | 1 => rfl
    | k + 2 =>
      rw [show k + 2 + 1 = 3 + k by omega, ancestor_add]
      rfl
  obtain ⟨hrefused, _, hround, _⟩ := c.nearest_declaration_is_inherited (.named "circle")
  have hdeep := hrefused.mpr (hround 0 1 (by decide) hcircle (by decide))
  exact ⟨hend, ⟨s, hresolve, hfacets _ _ .kind, hfacets _ _ .size, hfacets _ _ .preserveRaw,
    hfacets _ _ .extensible⟩, hcircle, hdeep⟩

end CborSchema
