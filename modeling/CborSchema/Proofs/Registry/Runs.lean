import CborSchema.Proofs.Registry.Asked
import CborSchema.Registry

/-!
# Registries that are used

A registry is used over and over: types are resolved, values decoded and encoded, in any order. What
it remembers is never another answer than the catalog would give, so no use can tell it from a
registry before any use.

* `Use`, `Use.run`, `Registry.after` -- uses of a registry, and what is left behind them;
* `Registry.Remembers` -- what a registry holds after types were reached: each of them once, with
  what the catalog says. `Remembers.add` for one type, `Remembers.enter` for those of a run,
  `remembers_after` for the runs of any uses;
* `Registry.Threads` -- a run that looks up each type in the registry as it stands at that moment,
  which is `threads_iff` the run on the catalog;
* `Registry.Invisible`, `Catalog.registry_is_invisible` -- **a registry is an invisible cache that
  only grows.**
-/

namespace CborSchema

/-! ## 1. Uses -/

/-- One use of a registry. -/
inductive Use where
  | resolve (t : TypeExpr)
  | decode (t : TypeExpr) (bytes : Bytes) (o : DecodeOptions)
  | encode (v : Value) (o : EncodeOptions)

/-- What a use answers. -/
inductive Answer where
  | shape (s : Shape)
  | value (v : Value)
  | bytes (b : Bytes)

/-- Why a use fails. -/
inductive Refusal where
  | type (f : ConfigError)
  | input (e : DecodeError)
  | value (e : EncodeError)

/-- The faulty declaration a use failed for. -/
def Refusal.fault : Refusal → Option ConfigError
  | .type f => some f
  | .input e => e.fault
  | .value e => e.fault

/-- The same outcome in other words. -/
def Outcome.told {ε ε' α β : Type} (x : Outcome ε α) (refusal : ε → ε') (answer : α → β) :
    Outcome ε' β := ⟨(x.result.map answer).mapError refusal, x.reached⟩

/-- A use on a codec: the answer, and the types it reached. -/
def Use.run : Use → Codec → Outcome Refusal Answer
  | resolve t, c => (c.reach id t).told .type .shape
  | decode t bytes o, c => (c.decode t bytes o).told .input .value
  | encode v o, c => (c.encode v o).told .value .bytes

/-- The registry that uses leave behind, one after the other. -/
def Registry.after (r : Registry) (us : List Use) : Registry :=
  us.foldl (fun r u => (r.step u.run).2) r

theorem Registry.after_cons (r : Registry) (u : Use) (us : List Use) :
    r.after (u :: us) = (r.step u.run).2.after us := rfl

section asking

variable {shapes shapes' : TypeExpr → Except ConfigError Shape}

theorem Outcome.Asking.told {ε ε' α β : Type} {fault : ε → Option ConfigError}
    {fault' : ε' → Option ConfigError} {x x' : Outcome ε α} (h : x.Asking fault shapes shapes' x')
    {refusal : ε → ε'} (hfault : ∀ e, fault' (refusal e) = fault e) (answer : α → β) :
    (x.told refusal answer).Asking fault' shapes shapes' (x'.told refusal answer) := by
  constructor
  · intro hsame
    rw [h.same hsame]
  · intro e f he hf
    have he : (x.result.map answer).mapError refusal = .error e := he
    cases hr : x.result with
    | ok a =>
      rw [hr] at he
      cases he
    | error e' =>
      rw [hr] at he
      cases he
      rw [hfault] at hf
      exact h.blamed e' f hr hf

/-- Each use asks for the shapes of the types it reaches. -/
theorem Use.run_asking (u : Use) (c : Catalog) (schemas : String → Schema) :
    (u.run ⟨c, shapes⟩).Asking Refusal.fault shapes shapes'
    (u.run ⟨c.withSchemas schemas, shapes'⟩) := by
  cases u with
  | resolve t =>
    have hfault : ∀ f, (Refusal.type f).fault = some f := fun _ => rfl
    have hreach : ∀ f : ConfigError, some (id f) = some f := fun _ => rfl
    exact (Outcome.Asking.reach hreach t).told hfault _
  | decode t bytes o =>
    have hfault : ∀ e, (Refusal.input e).fault = e.fault := fun _ => rfl
    exact (Codec.decode_asking t bytes o).told hfault _
  | encode v o =>
    have hfault : ∀ e, (Refusal.value e).fault = e.fault := fun _ => rfl
    exact (Codec.encode_asking v o).told hfault _

end asking

/-! ## 2. What is remembered -/

namespace Registry

variable {c : Catalog} {ts : List TypeExpr} {r : Registry}

/-- What a registry holds after types were reached. -/
structure Remembers (c : Catalog) (ts : List TypeExpr) (r : Registry) : Prop where
  catalog : r.catalog = c
  /-- Exactly the types reached have an entry, and it is what the catalog says. -/
  entry : ∀ t x, (t, x) ∈ r.entries ↔ x = c.resolve t ∧ t ∈ ts
  /-- No type has two entries. -/
  once : (r.entries.map Prod.fst).Nodup

theorem remembers_ofCatalog (c : Catalog) : (ofCatalog c).Remembers c [] :=
  ⟨rfl, by simp [ofCatalog], .nil⟩

theorem contains_iff {t : TypeExpr} : r.contains t = true ↔ ∃ x, (t, x) ∈ r.entries := by
  rw [contains, List.any_eq_true]
  constructor
  · rintro ⟨⟨t', x⟩, he, ht⟩
    obtain rfl : t' = t := by simpa using ht
    exact ⟨x, he⟩
  · rintro ⟨x, he⟩
    exact ⟨_, he, by simp⟩

namespace Remembers

/-- **A registry says of each type what its catalog says.** -/
theorem resolve (h : Remembers c ts r) (t : TypeExpr) : r.resolve t = c.resolve t := by
  rw [Registry.resolve]
  cases hl : r.entries.lookup t with
  | none => rw [h.catalog]
  | some x =>
    obtain ⟨before, after, hes, _⟩ := List.lookup_eq_some_iff.mp hl
    have hmem : (t, x) ∈ r.entries := by
      rw [hes]
      simp
    exact ((h.entry t x).mp hmem).1

theorem codec (h : Remembers c ts r) : r.codec = c.codec := by
  rw [Registry.codec, Catalog.codec, h.catalog, show r.resolve = c.resolve from funext h.resolve]

/-- A type that is reached once more changes nothing, and a new one is entered. -/
theorem add (h : Remembers c ts r) (t : TypeExpr) : Remembers c (ts ++ [t]) (r.add t) := by
  rw [Registry.add]
  split
  · rename_i hin
    obtain ⟨x, hx⟩ := contains_iff.mp hin
    have ht : t ∈ ts := ((h.entry t x).mp hx).2
    refine ⟨h.catalog, fun t' x' => ?_, h.once⟩
    rw [h.entry, List.mem_append, List.mem_singleton]
    exact and_congr_right fun _ => ⟨.inl, fun h => h.elim id fun heq => heq ▸ ht⟩
  · rename_i hnew
    rw [contains_iff, not_exists] at hnew
    refine ⟨h.catalog, fun t' x' => ?_, ?_⟩
    · rw [List.mem_cons, Prod.mk.injEq, h.resolve, h.entry, List.mem_append, List.mem_singleton]
      constructor
      · rintro (⟨rfl, rfl⟩ | ⟨rfl, ht⟩)
        · exact ⟨rfl, .inr rfl⟩
        · exact ⟨rfl, .inl ht⟩
      · rintro ⟨rfl, ht | rfl⟩
        · exact .inr ⟨rfl, ht⟩
        · exact .inl ⟨rfl, rfl⟩
    · rw [List.map_cons, List.nodup_cons]
      refine ⟨fun hmem => ?_, h.once⟩
      obtain ⟨⟨t', x⟩, he, rfl⟩ := List.mem_map.mp hmem
      exact hnew x he

theorem enter (h : Remembers c ts r) (reached : List TypeExpr) :
    Remembers c (ts ++ reached) (r.enter reached) := by
  induction reached generalizing ts r with
  | nil => rwa [List.append_nil]
  | cons t reached ih =>
    rw [List.append_cons]
    exact ih (h.add t)

end Remembers

/-- **After any uses a registry holds the types that they reached on the catalog itself.** -/
theorem remembers_after (h : r.Remembers c ts) (us : List Use) :
    (r.after us).Remembers c (ts ++ us.flatMap fun u => (u.run c.codec).reached) := by
  induction us generalizing ts r with
  | nil => rwa [List.flatMap_nil, List.append_nil]
  | cons u us ih =>
    rw [after_cons, List.flatMap_cons, ← List.append_assoc]
    have hstep : Remembers c (ts ++ (u.run c.codec).reached) (r.step u.run).2 := by
      rw [step, h.codec]
      exact h.enter _
    exact ih hstep

/-! ## 3. What is kept -/

theorem add_suffix (r : Registry) (t : TypeExpr) : r.entries <:+ (r.add t).entries := by
  rw [add]
  split
  · exact List.suffix_refl _
  · exact List.suffix_cons _ _

theorem enter_suffix (r : Registry) (reached : List TypeExpr) :
    r.entries <:+ (r.enter reached).entries := by
  induction reached generalizing r with
  | nil => exact List.suffix_refl _
  | cons t reached ih => exact (r.add_suffix t).trans (ih (r.add t))

/-- No entry is changed or removed by further uses. -/
theorem after_suffix (r : Registry) (us : List Use) : r.entries <:+ (r.after us).entries := by
  induction us generalizing r with
  | nil => exact List.suffix_refl _
  | cons u us ih => exact (r.enter_suffix _).trans (ih (r.step u.run).2)

/-! ## 4. Look-ups -/

/-- An outcome of a run that looks up each type it reaches in the registry as it stands at that
    moment: with the types entered that the run reached before. -/
def Threads (r : Registry) {ε α : Type} (run : Codec → Outcome ε α) (x : Outcome ε α) : Prop :=
  ∃ answer, x = run ⟨r.catalog, answer⟩ ∧ ∀ before t after, x.reached = before ++ t :: after →
    answer t = (r.enter before).resolve t

/-- **A use that looks up each type when it reaches it is the use on the catalog.** -/
theorem threads_iff (h : r.Remembers c ts) (u : Use) {x : Outcome Refusal Answer} :
    r.Threads u.run x ↔ x = u.run c.codec := by
  constructor
  · rintro ⟨answer, hx, hlook⟩
    -- whatever was entered before a look-up, the registry answers it as the catalog does
    have hagree : ∀ t ∈ x.reached, c.resolve t = answer t := by
      intro t ht
      obtain ⟨before, after, hsplit⟩ := List.append_of_mem ht
      rw [hlook before t after hsplit, (h.enter before).resolve]
    rw [h.catalog] at hx
    subst hx
    exact ((u.run_asking c fun name => (c.declared name).schema).same hagree).symm
  · rintro rfl
    refine ⟨c.resolve, by rw [h.catalog]; rfl, fun before t after _ => ?_⟩
    rw [(h.enter before).resolve]

end Registry

/-! ## 5. Invisible registries -/

/-- A registry of a catalog, after some uses, that no further use can tell from a new one. -/
structure Registry.Invisible (c : Catalog) (before : List Use) (r : Registry) : Prop where
  /-- Each use answers what it answers on a registry without entries. -/
  answers : ∀ u : Use, (r.step u.run).1 = ((ofCatalog c).step u.run).1
  /-- An entry is what the catalog says of its type, and exactly the types that were reached have
      one: not those that are only listed as a part or a candidate. -/
  entry : ∀ t x, (t, x) ∈ r.entries ↔
    x = c.resolve t ∧ ∃ u ∈ before, t ∈ (u.run c.codec).reached
  once : (r.entries.map Prod.fst).Nodup
  /-- All entries stay as they are. -/
  kept : ∀ more, r.entries <:+ (r.after more).entries
  /-- It makes no difference whether the types a use reaches are entered behind it or one by one. -/
  threads : ∀ (u : Use) x, r.Threads u.run x ↔ x = u.run c.codec
  /-- What is declared of the types that a use does not reach, faulty or not, does not change it. -/
  unreached : ∀ (u : Use) (schemas : String → Schema),
    (∀ t ∈ (u.run c.codec).reached, (c.withSchemas schemas).resolve t = c.resolve t) →
      ((ofCatalog (c.withSchemas schemas)).step u.run).1 = (r.step u.run).1
  /-- A use that fails for a faulty declaration has reached the type that has it. -/
  blamed : ∀ (u : Use) e f, (r.step u.run).1 = .error e → e.fault = some f →
    ∃ t ∈ (u.run c.codec).reached, c.resolve t = .error f

/-- **A registry is an invisible cache that only grows**, whatever the types are and whatever uses
    it had, in whatever order. -/
theorem Catalog.registry_is_invisible (c : Catalog) (before : List Use) :
    ((Registry.ofCatalog c).after before).Invisible c before := by
  have hr := Registry.remembers_after (Registry.remembers_ofCatalog c) before
  generalize (Registry.ofCatalog c).after before = r at hr ⊢
  have hanswer : ∀ u : Use, (r.step u.run).1 = (u.run c.codec).result := by
    intro u
    rw [Registry.step, hr.codec]
  exact {
    answers := fun u => hanswer u
    entry := fun t x => by rw [hr.entry, List.nil_append, List.mem_flatMap]
    once := hr.once
    kept := r.after_suffix
    threads := fun u x => Registry.threads_iff hr u
    unreached := fun u schemas hsame => by
      rw [hanswer]
      exact congrArg Outcome.result ((u.run_asking c schemas).same hsame)
    blamed := fun u e f he hf => by
      rw [hanswer] at he
      have hasking : (u.run c.codec).Asking Refusal.fault c.resolve c.resolve _ :=
        u.run_asking c fun name => (c.declared name).schema
      exact hasking.blamed e f he hf }

/-- A type without a kind is the second candidate of a union. An integer is the first one, so the
    faulty type has no entry; a text makes the union try it, and its fault is remembered. The
    integer is read as before. -/
theorem Catalog.untried_candidate_has_no_entry :
    let c : Catalog := {
      declared := fun name => { schema :=
        if name = "either" then (Schema.union.withCandidate .uint64).withCandidate (.named "broken")
        else {} }
      printName := fun _ => "type" }
    let number : Use := .decode (.named "either") [0x05] {}
    let text : Use := .decode (.named "either") [0x61, 0x61] {}
    let r := (Registry.ofCatalog c).after [number]
    let r' := (Registry.ofCatalog c).after [number, text]
    (∀ x, (.named "broken", x) ∉ r.entries) ∧
      (.named "broken", .error (.missingKind "type")) ∈ r'.entries ∧
      (r'.step text.run).1 = .error (.input (.config (.missingKind "type"))) ∧
      (r'.step number.run).1 = .ok (.value (.node (.named "either")
        (.variant (.ofScalar .uint64 (.uint 5))) {})) := by
  intro c number text r r'
  have hnumber : (number.run c.codec).reached = [.named "either", .uint64] := by cbv
  have htext : (text.run c.codec).reached = [.named "either", .uint64, .named "broken"] := by cbv
  have hbroken : c.resolve (.named "broken") = .error (.missingKind "type") := by cbv
  have h := c.registry_is_invisible [number, text]
  refine ⟨?_, ?_, ?_, ?_⟩
  · intro x hx
    obtain ⟨_, u, hu, ht⟩ := ((c.registry_is_invisible [number]).entry _ x).mp hx
    rw [List.mem_singleton.mp hu, hnumber] at ht
    simp at ht
  · exact (h.entry _ _).mpr ⟨hbroken.symm, text, by simp, by simp [htext]⟩
  · rw [h.answers]
    cbv
  · rw [h.answers]
    cbv

end CborSchema
