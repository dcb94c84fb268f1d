import CborSchema.Proofs.Shape.Checked
import Mathlib.Data.List.Induction
import Mathlib.Data.List.Nodup

/-!
# Checks on fields

The checks on a layout go through its fields once, with a few things remembered on the way. What
they accept and what they refuse is said here by conditions on all the fields.

* `FirstOffence` -- the first field that breaks a rule, those before it being fine; `run_is_exact`
  -- what is left to show of a check that stops there;
* `InPlace`, `Misplaced` -- the rules for the fields of an array, and how a field breaks them;
* `Keyed`, `Miskeyed` -- the same for the fields of a map;
* `Shape.layout_checks_are_exact` -- **the checks on fields accept and refuse by these rules.**
-/

namespace CborSchema

variable {s : Shape} {f : Field} {e : ConfigError}

/-! ## 1. The first offence -/

/-- One field breaks a rule, and those in front of it are fine. -/
def FirstOffence (fine : List Field → Prop) (offends : List Field → Field → ConfigError → Prop)
    (fields : List Field) (e : ConfigError) : Prop :=
  ∃ front f back, fields = front ++ f :: back ∧ fine front ∧ offends front f e

/-- If a field behind fine ones is fine or breaks a rule, then fields are fine or there is a first
    offence. -/
theorem fine_or_firstOffence {fine : List Field → Prop}
    {offends : List Field → Field → ConfigError → Prop} (hnil : fine [])
    (hnext : ∀ front f, fine front → fine (front ++ [f]) ∨ ∃ e, offends front f e)
    (fields : List Field) : fine fields ∨ ∃ e, FirstOffence fine offends fields e := by
  induction fields using List.reverseRecOn with
  | nil => exact .inl hnil
  | append_singleton front f ih =>
    rcases ih with hfine | ⟨e, first, g, back, rfl, hfirst, hg⟩
    · rcases hnext front f hfine with hf | ⟨e, hf⟩
      · exact .inl hf
      · exact .inr ⟨e, front, f, [], rfl, hfine, hf⟩
    · exact .inr ⟨e, first, g, back ++ [f], by simp, hfirst, hg⟩

/-- **A check is exact if it accepts what is fine and refuses the first offence.** -/
theorem run_is_exact (fine : List Field → Prop) (offends : List Field → Field → ConfigError → Prop)
    {run : List Field → Except ConfigError Unit} (hnil : fine [])
    (hnext : ∀ front f, fine front → fine (front ++ [f]) ∨ ∃ e, offends front f e)
    (haccepts : ∀ fields, fine fields → run fields = .ok ())
    (hrefuses : ∀ fields e, FirstOffence fine offends fields e → run fields = .error e)
    (fields : List Field) :
    (run fields = .ok () ↔ fine fields) ∧
      ∀ e, run fields = .error e ↔ FirstOffence fine offends fields e := by
  refine ⟨⟨fun h => ?_, haccepts fields⟩, fun e => ⟨fun h => ?_, hrefuses fields e⟩⟩
  · rcases fine_or_firstOffence hnil hnext fields with hfine | ⟨e, he⟩
    · exact hfine
    · rw [hrefuses fields e he] at h
      cases h
  · rcases fine_or_firstOffence hnil hnext fields with hfine | ⟨e', he⟩
    · rw [haccepts fields hfine] at h
      cases h
    · rw [hrefuses fields e' he] at h
      cases h
      exact he

/-! ## 2. Fields of an array -/

/-- The key of the field at a position. -/
def FieldKey.position (p : Nat) : FieldKey := .int (Int64.ofNat p)

/-- A literal must be there. -/
theorem presence_of_isLiteral (h : f.isLiteral = true) : f.presence = .required := by
  unfold Field.isLiteral at h
  unfold Field.presence
  cases hb : f.body with
  | literal l => rfl
  | value type presence =>
    rw [hb] at h
    cases h

/-- Fields in place: each under its own position, and nothing but optional ones behind an optional
    one. A literal is not optional. -/
structure InPlace (fields : List Field) : Prop where
  keys : ∀ p f, fields[p]? = some f → f.key = FieldKey.position p
  order : fields.Pairwise fun f g => f.presence = .optional → g.presence = .optional

/-- How the field behind others is out of place: under a key that came before, under another wrong
    key, or behind optional fields, the first of which the error names. -/
inductive Misplaced (name : String) (front : List Field) (f : Field) : ConfigError → Prop where
  | repeated (hkey : f.key ≠ .position front.length) (hbefore : f.key ∈ front.map Field.key) :
      Misplaced name front f (.duplicateKey name f.key)
  | displaced (hkey : f.key ≠ .position front.length) (hnew : f.key ∉ front.map Field.key) :
      Misplaced name front f (.nonPositionalKey name front.length f.key)
  | late {g : Field} (hkey : f.key = .position front.length) (hf : f.presence ≠ .optional)
      (hg : front.find? (·.presence = .optional) = some g) :
      Misplaced name front f (.optionalBeforeRequired name g.key)

theorem InPlace.nil : InPlace [] := ⟨by simp, .nil⟩

/-- One more field is in place under its position, and optional if one before it is. -/
theorem inPlace_snoc {front : List Field} : InPlace (front ++ [f]) ↔ InPlace front ∧
    f.key = .position front.length ∧ ∀ g ∈ front, g.presence = .optional →
      f.presence = .optional := by
  constructor
  · rintro ⟨hkeys, horder⟩
    obtain ⟨hfront, _, hlast⟩ := List.pairwise_append.mp horder
    refine ⟨⟨fun p g hg => hkeys p g ?_, hfront⟩, hkeys _ _ List.getElem?_concat_length,
      fun g hg => hlast g hg f (by simp)⟩
    obtain ⟨hp, _⟩ := List.getElem?_eq_some_iff.mp hg
    rw [List.getElem?_append_left hp, hg]
  · rintro ⟨⟨hkeys, horder⟩, hkey, hlast⟩
    refine ⟨fun p g hg => ?_, List.pairwise_append.mpr ⟨horder, List.pairwise_singleton _ _, ?_⟩⟩
    · rcases Nat.lt_or_ge p front.length with hp | hp
      · rw [List.getElem?_append_left hp] at hg
        exact hkeys p g hg
      · rw [List.getElem?_append_right hp, List.getElem?_singleton] at hg
        split at hg
        · cases hg
          rw [hkey, show p = front.length by omega]
        · cases hg
    · intro g hg f' hf'
      rw [List.mem_singleton.mp hf']
      exact hlast g hg

theorem InPlace.of_append {front back : List Field} (h : InPlace (front ++ back)) :
    InPlace front := by
  induction back using List.reverseRecOn with
  | nil => rwa [List.append_nil] at h
  | append_singleton back f ih =>
    rw [← List.append_assoc] at h
    exact ih (inPlace_snoc.mp h).1

/-- The check on the fields behind others. Of those it remembers how many they are, their keys, and
    the key of the first optional one. -/
def Shape.checkBehind (s : Shape) (front back : List Field) : Except ConfigError Unit :=
  checkPositions s.name front.length (front.map Field.key)
    ((front.find? (·.presence = .optional)).map Field.key) back

/-- One step of the check: the key first, the order after it. -/
theorem checkBehind_cons (s : Shape) (front back : List Field) (f : Field) :
    s.checkBehind front (f :: back) =
      if f.key = .position front.length then
        match front.find? (·.presence = .optional) with
        | some g => if f.presence = .optional then s.checkBehind (front ++ [f]) back
          else .error (.optionalBeforeRequired s.name g.key)
        | none => s.checkBehind (front ++ [f]) back
      else if f.key ∈ front.map Field.key then .error (.duplicateKey s.name f.key)
      else .error (.nonPositionalKey s.name front.length f.key) := by
  unfold Shape.checkBehind
  rw [Shape.checkPositions.eq_def]
  simp only [FieldKey.position, ne_eq, ite_not, List.contains_iff_mem, List.length_append,
    List.length_singleton, List.map_append, List.map_singleton, List.find?_append]
  cases front.find? (·.presence = .optional) <;> cases hf : f.presence <;> simp [hf]

/-- **A field in place is passed**, and is remembered from there on. -/
theorem checkBehind_inPlace {front : List Field} (h : InPlace (front ++ [f])) (back : List Field) :
    s.checkBehind front (f :: back) = s.checkBehind (front ++ [f]) back := by
  obtain ⟨_, hkey, hlast⟩ := inPlace_snoc.mp h
  rw [checkBehind_cons, if_pos hkey]
  cases hfirst : front.find? (·.presence = .optional) with
  | none => rfl
  | some g =>
    have hg : g.presence = .optional := by simpa using List.find?_some hfirst
    exact if_pos (hlast g (List.mem_of_find?_eq_some hfirst) hg)

/-- **A field out of place is refused** for what is wrong with it. -/
theorem checkBehind_misplaced {front : List Field} (h : Misplaced s.name front f e)
    (back : List Field) : s.checkBehind front (f :: back) = .error e := by
  rw [checkBehind_cons]
  cases h with
  | repeated hkey hbefore => rw [if_neg hkey, if_pos hbefore]
  | displaced hkey hnew => rw [if_neg hkey, if_neg hnew]
  | late hkey hf hg =>
    rw [if_pos hkey, hg]
    exact if_neg hf

theorem checkBehind_append (front : List Field) {fields : List Field}
    (h : InPlace (front ++ fields)) (back : List Field) :
    s.checkBehind front (fields ++ back) = s.checkBehind (front ++ fields) back := by
  induction fields generalizing front with
  | nil => rw [List.append_nil, List.nil_append]
  | cons f fields ih =>
    rw [List.append_cons] at h ⊢
    rw [List.cons_append, checkBehind_inPlace h.of_append, ih _ h]

theorem inPlace_or_misplaced (name : String) {front : List Field} (h : InPlace front) (f : Field) :
    InPlace (front ++ [f]) ∨ ∃ e, Misplaced name front f e := by
  by_cases hkey : f.key = .position front.length
  · by_cases hf : f.presence = .optional
    · exact .inl (inPlace_snoc.mpr ⟨h, hkey, fun _ _ _ => hf⟩)
    · cases hfirst : front.find? (·.presence = .optional) with
      | some g => exact .inr ⟨_, .late hkey hf hfirst⟩
      | none =>
        refine .inl (inPlace_snoc.mpr ⟨h, hkey, fun g hg hopt => ?_⟩)
        exact absurd hopt (by simpa using List.find?_eq_none.mp hfirst g hg)
  · by_cases hbefore : f.key ∈ front.map Field.key
    · exact .inr ⟨_, .repeated hkey hbefore⟩
    · exact .inr ⟨_, .displaced hkey hbefore⟩

/-- **The check on the fields of an array is exact.** -/
theorem checkPositional_exact (s : Shape) (fields : List Field) :
    (s.checkPositional fields = .ok () ↔ InPlace fields) ∧
      ∀ e, s.checkPositional fields = .error e ↔
        FirstOffence InPlace (Misplaced s.name) fields e := by
  refine run_is_exact InPlace (Misplaced s.name) .nil (fun _ f h => inPlace_or_misplaced s.name h f)
    (fun fields h => ?_) (fun fields e h => ?_) fields
  · have hrun := checkBehind_append (s := s) [] h []
    rw [List.append_nil] at hrun
    exact hrun
  · obtain ⟨front, f, back, rfl, hfront, hf⟩ := h
    exact (checkBehind_append (s := s) [] hfront _).trans (checkBehind_misplaced hf back)

/-! ## 3. Fields of a map -/

/-- Fields under different keys, none of them nullable. -/
structure Keyed (fields : List Field) : Prop where
  keys : (fields.map Field.key).Nodup
  presence : ∀ f ∈ fields, f.presence ≠ .nullable

/-- How the field behind others is refused: under a key that came before, or for being nullable. -/
inductive Miskeyed (s : Shape) (front : List Field) (f : Field) : ConfigError → Prop where
  | repeated (hbefore : f.key ∈ front.map Field.key) :
      Miskeyed s front f (.duplicateKey s.name f.key)
  | nullable (hnew : f.key ∉ front.map Field.key) (hf : f.presence = .nullable) :
      Miskeyed s front f (.facetMismatch s.name .nullable s.kind)

theorem Keyed.nil : Keyed [] := ⟨.nil, by simp⟩

/-- One more field may stand there under a new key, if it is not nullable. -/
theorem keyed_snoc {front : List Field} : Keyed (front ++ [f]) ↔
    Keyed front ∧ f.key ∉ front.map Field.key ∧ f.presence ≠ .nullable := by
  have hkeys : ((front ++ [f]).map Field.key).Nodup ↔
      f.key ∉ front.map Field.key ∧ (front.map Field.key).Nodup := by
    rw [List.map_append, List.map_singleton, ← List.concat_eq_append, List.nodup_concat]
  constructor
  · rintro ⟨hnodup, hall⟩
    obtain ⟨hnew, hfront⟩ := hkeys.mp hnodup
    exact ⟨⟨hfront, fun g hg => hall g (List.mem_append_left _ hg)⟩, hnew, hall f (by simp)⟩
  · rintro ⟨⟨hfront, hall⟩, hnew, hf⟩
    exact ⟨hkeys.mpr ⟨hnew, hfront⟩, List.forall_mem_append.mpr ⟨hall, by simpa using hf⟩⟩

theorem Keyed.of_append {front back : List Field} (h : Keyed (front ++ back)) : Keyed front :=
  ⟨(List.nodup_append.mp (List.map_append ▸ h.keys)).1,
    fun f hf => h.presence f (List.mem_append_left _ hf)⟩

/-- **A field under a new key is passed** if it is not nullable. -/
theorem checkKeys_keyed {front : List Field} (h : Keyed (front ++ [f])) (back : List Field) :
    s.checkKeys (front.map Field.key) (f :: back) =
      s.checkKeys ((front ++ [f]).map Field.key) back := by
  obtain ⟨_, hnew, hf⟩ := keyed_snoc.mp h
  rw [Shape.checkKeys, if_neg (mt List.contains_iff_mem.mp hnew), if_neg hf, List.map_append,
    List.map_singleton]

/-- **A field that may not stand there is refused** for what is wrong with it. -/
theorem checkKeys_miskeyed {front : List Field} (h : Miskeyed s front f e) (back : List Field) :
    s.checkKeys (front.map Field.key) (f :: back) = .error e := by
  rw [Shape.checkKeys]
  cases h with
  | repeated hbefore => rw [if_pos (List.contains_iff_mem.mpr hbefore)]
  | nullable hnew hf => rw [if_neg (mt List.contains_iff_mem.mp hnew), if_pos hf]

theorem checkKeys_append (front : List Field) {fields : List Field} (h : Keyed (front ++ fields))
    (back : List Field) : s.checkKeys (front.map Field.key) (fields ++ back) =
      s.checkKeys ((front ++ fields).map Field.key) back := by
  induction fields generalizing front with
  | nil => rw [List.append_nil, List.nil_append]
  | cons f fields ih =>
    rw [List.append_cons] at h ⊢
    rw [List.cons_append, checkKeys_keyed h.of_append, ih _ h]

theorem keyed_or_miskeyed (s : Shape) {front : List Field} (h : Keyed front) (f : Field) :
    Keyed (front ++ [f]) ∨ ∃ e, Miskeyed s front f e := by
  by_cases hbefore : f.key ∈ front.map Field.key
  · exact .inr ⟨_, .repeated hbefore⟩
  · by_cases hf : f.presence = .nullable
    · exact .inr ⟨_, .nullable hbefore hf⟩
    · exact .inl (keyed_snoc.mpr ⟨h, hbefore, hf⟩)

/-- **The check on the keys of a map is exact.** -/
theorem checkKeys_exact (s : Shape) (fields : List Field) :
    (s.checkKeys [] fields = .ok () ↔ Keyed fields) ∧
      ∀ e, s.checkKeys [] fields = .error e ↔ FirstOffence Keyed (Miskeyed s) fields e := by
  refine run_is_exact Keyed (Miskeyed s) .nil (fun _ f h => keyed_or_miskeyed s h f)
    (fun fields h => ?_) (fun fields e h => ?_) fields
  · have hrun := checkKeys_append (s := s) [] h []
    rw [List.append_nil] at hrun
    exact hrun
  · obtain ⟨front, f, back, rfl, hfront, hf⟩ := h
    exact (checkKeys_append (s := s) [] hfront _).trans (checkKeys_miskeyed hf back)

/-! ## 4. Layouts -/

/-- **The fields of an array are checked last**: the other checks come out as they do without
    fields. -/
theorem check_array_fields {fields : List Field} (hk : s.kind = .list ∨ s.kind = .constructor)
    (hl : s.layout = some (.fields fields)) (item self : TypeExpr) :
    s.check self = ({ s with layout := some (.items item) } : Shape).check self >>= fun _ =>
      s.checkPositional fields := by
  obtain ⟨name, kind, tag, _, _, layout, _, _, _, _, chunkSize, _⟩ := s
  dsimp only at hk hl
  subst hl
  rw [Shape.check, Shape.check]
  split
  · rfl
  · rcases hk with rfl | rfl
    · simp only [bind_assoc]
      rfl
    · cases tag <;> simp only [bind_assoc] <;> rfl

/-- **The fields of a map are checked last.** -/
theorem check_map_fields {fields : List Field} (hk : s.kind = .map)
    (hl : s.layout = some (.fields fields)) (key value self : TypeExpr) :
    s.check self = ({ s with layout := some (.entries key value) } : Shape).check self >>= fun _ =>
      s.checkKeyed fields := by
  obtain ⟨name, kind, tag, _, _, layout, _, _, _, _, chunkSize, _⟩ := s
  dsimp only at hk hl
  subst hk hl
  rw [Shape.check, Shape.check]
  split
  · rfl
  · simp only [bind_assoc]
    rfl

/-- **Field layouts are checked exactly.** For every shape and all fields:

* the fields of an array pass exactly if the key of each is its position and no field that is
  required, nullable or a literal stands behind an optional one; a position is its own key as long
  as it is less than `2 ^ 63`, and a literal is required;
* else the error is about the first field that breaks a rule: a key that came before it, another
  wrong key, or an order for which the first optional field is named;
* the fields of a map pass exactly if there are any, their keys differ, be they integers or texts,
  and none is nullable; the error is again about the first field that breaks a rule;
* for a type these checks decide once all others have passed. -/
theorem Shape.layout_checks_are_exact (s : Shape) (fields : List Field) :
    (s.checkPositional fields = .ok () ↔ InPlace fields) ∧
    (∀ e, s.checkPositional fields = .error e ↔ ∃ front f back, fields = front ++ f :: back ∧
      InPlace front ∧ Misplaced s.name front f e) ∧
    (∀ p n, FieldKey.position p = .int n → p < 2 ^ 63 → n.toInt = p) ∧
    (∀ f ∈ fields, f.isLiteral → f.presence = .required) ∧
    (s.checkKeyed fields = .ok () ↔ fields ≠ [] ∧ (fields.map Field.key).Nodup ∧
      ∀ f ∈ fields, f.presence ≠ .nullable) ∧
    (∀ e, s.checkKeyed fields = .error e ↔ (fields = [] ∧ e = .emptyMap s.name) ∨
      ∃ front f back, fields = front ++ f :: back ∧ Keyed front ∧ Miskeyed s front f e) ∧
    (∀ item key value self, s.layout = some (.fields fields) →
      (s.kind = .list ∨ s.kind = .constructor → s.check self =
        ({ s with layout := some (.items item) } : Shape).check self >>= fun _ =>
        s.checkPositional fields) ∧
      (s.kind = .map → s.check self =
        ({ s with layout := some (.entries key value) } : Shape).check self >>= fun _ =>
          s.checkKeyed fields)) := by
  obtain ⟨hpass, hrefuse⟩ := checkPositional_exact s fields
  refine ⟨hpass, hrefuse, fun p n hn hp => ?_, fun f _ hf => ?_, ?_, fun e => ?_,
    fun item key value self hl => ⟨fun hk => ?_, fun hk => ?_⟩⟩
  · cases hn
    exact Int64.toInt_ofNat_of_lt hp
  · exact presence_of_isLiteral hf
  · cases fields with
    | nil => simp [checkKeyed]
    | cons f fs =>
      rw [checkKeyed, if_neg (by simp), (checkKeys_exact s (f :: fs)).1]
      exact ⟨fun h => ⟨by simp, h.keys, h.presence⟩, fun h => ⟨h.2.1, h.2.2⟩⟩
  · cases fields with
    | nil => simp [checkKeyed, eq_comm]
    | cons f fs =>
      rw [checkKeyed, if_neg (by simp), (checkKeys_exact s (f :: fs)).2]
      simp [FirstOffence]
  · exact check_array_fields hk hl item self
  · exact check_map_fields hk hl key value self

/-- A list with a literal behind an optional field is refused, and a map under the keys 1 and "1"
    passes. -/
theorem Shape.literal_behind_optional_is_refused :
    let s (kind : Kind) (fields : List Field) : Shape := ⟨"pair", kind, none, none, .either,
      some (.fields fields), [], false, false, none, none, .minimal⟩
    (s .list [⟨.int 0, .value .uint64 .optional⟩, ⟨.int 1, .literal (.int 5)⟩]).check .uint64 =
        .error (.optionalBeforeRequired "pair" (.int 0)) ∧
      (s .map [⟨.int 1, .value .uint64 .required⟩,
        ⟨.text "1", .value .uint64 .optional⟩]).check .uint64 = .ok () := by
  intro s
  constructor
  · obtain ⟨_, hrefuse, _, _, _, _, hcheck⟩ := layout_checks_are_exact (s .list _)
      [⟨.int 0, .value .uint64 .optional⟩, ⟨.int 1, .literal (.int 5)⟩]
    have hfront : InPlace [⟨.int 0, .value .uint64 .optional⟩] :=
      inPlace_snoc.mpr ⟨.nil, rfl, by simp⟩
    have hlate := (hrefuse _).mpr ⟨_, _, [], rfl, hfront, .late rfl (by decide) rfl⟩
    rw [(hcheck .uint64 .uint64 .uint64 .uint64 rfl).1 (.inl rfl), hlate]
    rfl
  · obtain ⟨_, _, _, _, hpass, _, hcheck⟩ := layout_checks_are_exact (s .map _)
      [⟨.int 1, .value .uint64 .required⟩, ⟨.text "1", .value .uint64 .optional⟩]
    rw [(hcheck .uint64 .uint64 .uint64 .uint64 rfl).2 rfl, hpass.mpr (by decide)]
    rfl

end CborSchema
