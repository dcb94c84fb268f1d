import CborSchema.Proofs.Decode.Related
import Mathlib.Data.List.Forall2

/-!
# Runs that fail alike

Two decoders next to each other, on the same bytes: both answer the same, or both fail, and a
relation `E` holds between the two errors. What is shown of a run by an induction over all readers
is shown here once, for every such relation.

* `ErrorRelation E` -- what `E` has to satisfy: it holds of an error without further errors in it
  and itself, it carries over from the failures of the candidates to the refusal of a union, and it
  never takes a faulty declaration for a mismatch;
* `Outcomes.Alike`, `Decoder.Alike` -- answers and decoders that fail alike, which is a relation
  that readers preserve;
* `read_alike` -- **the same type read twice fails alike**, if the two runs differ in nothing but
  the nesting that a refusal names.
-/

namespace CborSchema

/-! ## 1. Errors -/

/-- The same candidate failed for related reasons, and not because it is faulty. -/
def FailedAlike (E : DecodeError → DecodeError → Prop) (f g : String × DecodeError) : Prop :=
  f.1 = g.1 ∧ E f.2 g.2 ∧ ∀ c, f.2 ≠ .config c

/-- A relation between errors that the readers preserve. -/
structure ErrorRelation (E : DecodeError → DecodeError → Prop) : Prop where
  plain : ∀ e, e.isPlain → E e e
  union : ∀ name fs gs, List.Forall₂ (FailedAlike E) fs gs →
    E (.noMatchingCandidate name fs) (.noMatchingCandidate name gs)
  config : ∀ e f, E e f → ∀ c, e = .config c ↔ f = .config c

/-- Both answer the same, or both fail with related errors. -/
inductive Alike {α : Type} (E : DecodeError → DecodeError → Prop) :
    Except DecodeError α → Except DecodeError α → Prop where
  | ok (a : α) : Alike E (.ok a) (.ok a)
  | error {e f : DecodeError} (h : E e f) : Alike E (.error e) (.error f)

variable {E : DecodeError → DecodeError → Prop} {α β : Type}

/-- Outcomes whose answers are alike, whatever types they reached. -/
def Outcome.Alike (E : DecodeError → DecodeError → Prop) (α : Type)
    (x y : Outcome DecodeError α) : Prop := CborSchema.Alike E x.result y.result

/-- **To fail alike is kept by the readers.** -/
theorem ErrorRelation.outcomes (hE : ErrorRelation E) : OutcomeRelation (Outcome.Alike E) where
  ofExcept {α x} h := by
    cases x with
    | ok a => exact .ok a
    | error e => exact .error (hE.plain e (h e rfl))
  bind {α β x x' f f'} hx hf := by
    rw [Outcome.Alike, Outcome.result_bind, Outcome.result_bind]
    rw [Outcome.Alike] at hx
    generalize x.result = y at hx
    generalize x'.result = y' at hx
    cases hx with
    | ok a => exact hf a
    | error h => exact .error h

/-! ## 2. Decoders -/

namespace Decoder

/-- On all bytes both answer the same and leave the same, or both fail with related errors. -/
def Alike (E : DecodeError → DecodeError → Prop) (d d' : Decoder α) : Prop :=
  ∀ bytes, CborSchema.Alike E (d bytes).result (d' bytes).result

theorem Alike.pure (a : α) : Alike E (Pure.pure a : Decoder α) (Pure.pure a) := fun _ => .ok _

theorem Alike.fail {e f : DecodeError} (h : E e f) :
    Alike E (Decoder.fail e : Decoder α) (Decoder.fail f) := fun _ => .error h

theorem Alike.ofExcept (hE : ErrorRelation E) {x : Except DecodeError α} (h : FailsPlainly x) :
    Alike E (Decoder.ofExcept x) (Decoder.ofExcept x) := hE.outcomes.check h

theorem Alike.scan (hE : ErrorRelation E) (s : Scan α) :
    Alike E (liftM s : Decoder α) (liftM s) := hE.outcomes.scan s

theorem Alike.bind {d d' : Decoder α} {f f' : α → Decoder β} (hd : Alike E d d')
    (hf : ∀ a, Alike E (f a) (f' a)) : Alike E (d >>= f) (d' >>= f') := by
  intro bytes
  rw [bind_apply, bind_apply, Outcome.result_bind, Outcome.result_bind]
  have h := hd bytes
  generalize (d bytes).result = x at h
  generalize (d' bytes).result = y at h
  cases h with
  | ok p => exact hf p.1 p.2
  | error h => exact .error h

/-- After the same first step, whose answers satisfy `P`. -/
theorem Alike.bind_yields {d : Decoder α} {P : α → Bytes → Prop} {f f' : α → Decoder β}
    (hd : Alike E d d) (hy : d.Yields P) (hf : ∀ a u, P a u → Alike E (f a) (f' a)) :
    Alike E (d >>= f) (d >>= f') := by
  intro bytes
  have h := hd bytes
  rw [bind_apply, bind_apply, Outcome.result_bind, Outcome.result_bind]
  cases hx : (d bytes).result with
  | ok p =>
    obtain ⟨u, _, _, hP⟩ := hy bytes p.1 p.2 hx
    exact hf p.1 u hP p.2
  | error e =>
    rw [hx] at h
    cases h with
    | error h => exact .error h

end Decoder

open Decoder

/-! ## 3. Readers -/

/-- Two readings of a shape with the same limits, whose parts are read alike. -/
abbrev Reading.Alike (E : DecodeError → DecodeError → Prop) (s : Shape) (r r' : Reading) : Prop :=
  Reading.Related (Outcome.Alike E) s r r'

section readers

variable (hE : ErrorRelation E) {s : Shape} {r r' : Reading} (hr : r.Alike E s r')
include hE hr

omit hE in
/-- Where one of two alike runs answers on the bytes of an item, it leaves none. -/
theorem whole_alike (hsound : r.Sound) {t : TypeExpr} (ht : t ∈ s.partTypes) {span : Bytes}
    (hspan : IsItem span) :
    CborSchema.Alike E ((r.part t).whole span).result ((r'.part t).whole span).result := by
  show CborSchema.Alike E (r.part t span >>= _).result (r'.part t span >>= _).result
  rw [Outcome.result_bind, Outcome.result_bind]
  have h : CborSchema.Alike E (r.part t span).result (r'.part t span).result := hr.part t ht span
  have hrest : ∀ p, (r.part t span).result = .ok p → p.2 = [] := by
    rintro ⟨v, rest⟩ hp
    obtain ⟨u, hu, _, hi, _⟩ := hsound t span v rest hp
    have heq : span ++ [] = u ++ rest := by rw [List.append_nil, hu]
    obtain rfl := hspan.eq_of_append hi heq
    simpa using hu
  generalize (r.part t span).result = x at h hrest
  generalize (r'.part t span).result = y at h
  cases h with
  | ok p =>
    have hp := hrest p rfl
    show CborSchema.Alike E (Outcome.result (if p.2.isEmpty then _ else _))
      (Outcome.result (if p.2.isEmpty then _ else _))
    rw [hp]
    exact .ok _
  | error h => exact .error h

theorem firstCandidate_alike (hsound : r.Sound) (catalog : Catalog) (name : String) {span : Bytes}
    (hspan : IsItem span) {ts : List TypeExpr} (hts : ∀ t ∈ ts, t ∈ s.partTypes)
    {failed failed' : List (String × DecodeError)}
    (hf : List.Forall₂ (FailedAlike E) failed failed') :
    CborSchema.Alike E (firstCandidate r catalog name span failed ts).result
      (firstCandidate r' catalog name span failed' ts).result := by
  induction ts generalizing failed failed' with
  | nil => exact .error (hE.union name failed failed' hf)
  | cons t ts ih =>
    obtain ⟨ht, hts⟩ := List.forall_mem_cons.mp hts
    have h := whole_alike hr hsound ht hspan
    generalize hx : ((r.part t).whole span).result = x at h
    generalize hy : ((r'.part t).whole span).result = y at h
    cases h with
    | ok v =>
      rw [firstCandidate_ok hx, firstCandidate_ok hy]
      exact .ok v
    | error hef =>
      rename_i e f
      by_cases hc : ∃ c, e = .config c
      · obtain ⟨c, rfl⟩ := hc
        obtain rfl := (hE.config _ _ hef c).mp rfl
        rw [firstCandidate_config hx, firstCandidate_config hy]
        exact .error hef
      · have he : ∀ c, e ≠ .config c := fun c h => hc ⟨c, h⟩
        have hf' : ∀ c, f ≠ .config c := fun c h => hc ⟨c, (hE.config _ _ hef c).mpr h⟩
        rw [firstCandidate_error hx he, firstCandidate_error hy hf']
        exact ih hts (List.rel_append hf (.cons ⟨rfl, hef, he⟩ .nil))

theorem readUnion_alike (hsound : r.Sound) (catalog : Catalog) :
    Decoder.Alike E (s.readUnion r catalog) (s.readUnion r' catalog) := by
  rw [Shape.readUnion, Shape.readUnion, ← hr.depth]
  refine Alike.bind_yields (Alike.scan hE _) (Yields.scan (Scan.item_yields r.depth)) ?_
  rintro span u ⟨rfl, hi⟩
  refine Alike.bind (fun rest => ?_) fun v => .pure _
  rw [Outcome.result_bind, Outcome.result_bind]
  have h := firstCandidate_alike hE hr hsound catalog s.name hi.isItem
    (fun t ht => Shape.candidate_mem ht) .nil
  generalize (firstCandidate r catalog s.name span [] s.candidates).result = x at h
  generalize (firstCandidate r' catalog s.name span [] s.candidates).result = y at h
  cases h with
  | ok v => exact .ok _
  | error h => exact .error h

theorem readKept_alike (hsound : r.Sound) (catalog : Catalog) :
    Decoder.Alike E (s.readKept r catalog) (s.readKept r' catalog) :=
  readKept_related hE.outcomes hr fun _ => readUnion_alike hE hr hsound catalog

end readers

/-! ## 4. Values -/

/-- Options that differ in nothing but the nesting and what may follow. -/
structure DecodeOptions.SameLengths (o o' : DecodeOptions) : Prop where
  collection : o.maxCollectionLength = o'.maxCollectionLength
  string : o.maxStringLength = o'.maxStringLength

/-- Types whose parts are among them again, and whose faults are related to themselves. -/
structure Codec.ClosedUnder (c : Codec) (E : DecodeError → DecodeError → Prop)
    (T : TypeExpr → Prop) : Prop where
  parts : ∀ t s, T t → c.resolve t = .ok s → ∀ t' ∈ s.partTypes, T t'
  faulty : ∀ t f, T t → c.resolve t = .error f → E (.config f) (.config f)

/-- **The same type read twice fails alike.** The induction is on the nesting that is left; the two
    runs have the same. -/
theorem Codec.read_alike {c : Codec} {o o' : DecodeOptions} {T : TypeExpr → Prop}
    (hE : ErrorRelation E) (hdeep : E (.wire (.tooDeep o.maxDepth)) (.wire (.tooDeep o'.maxDepth)))
    (ho : o.SameLengths o') (hT : c.ClosedUnder E T) (depth : Nat) {t : TypeExpr} (ht : T t) :
    Decoder.Alike E (c.read o depth t) (c.read o' depth t) := by
  have hshape : ∀ t, T t → Decoder.Alike E (c.shape t) (c.shape t) := by
    intro t ht bytes
    show CborSchema.Alike E (c.reach DecodeError.config t >>= _).result
      (c.reach DecodeError.config t >>= _).result
    rw [Outcome.result_bind, reach]
    cases hs : c.resolve t with
    | ok s => exact .ok _
    | error f => exact .error (hT.faulty t f ht hs)
  induction depth generalizing t with
  | zero => exact (hshape t ht).bind fun s => .fail hdeep
  | succ depth ih =>
    refine Alike.bind_yields (hshape t ht) (shape_yields c t) fun s u hs => ?_
    obtain ⟨rfl, hs⟩ := hs
    have hr : (c.reading o depth).Alike E s (c.reading o' depth) :=
      ⟨ho.collection, ho.string, rfl, fun t' ht' => ih (hT.parts t s ht hs t' ht')⟩
    refine (readKept_alike hE hr (sound c o depth) c.catalog).bind fun parts => ?_
    exact Alike.ofExcept hE (construct_plain c.catalog parts t s)

end CborSchema
