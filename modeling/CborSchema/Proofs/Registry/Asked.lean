import CborSchema.Proofs.Decode.Related
import CborSchema.Proofs.Encode.Related

/-!
# What a run asks for

A run asks its codec for the shapes of types, one by one, and for nothing else about their schemas.
A codec that gives the same shapes to the types that were reached leads to the same outcome,
whatever it says of all others. And a run that ends with a faulty declaration has reached the type
that has it.

* `Catalog.withSchemas` -- a catalog whose types have other schemas, but are built, compared and
  printed as before;
* `Outcome.Asking` -- two outcomes of one run, on two codecs; `Asking.bind` puts two steps together;
* `asking_relation` -- it is a relation that readers preserve; `Codec.read_asking`,
  `Codec.decode_asking`: decoding;
* `encodesAsking_relation`, `Codec.write_asking`, `Codec.encode_asking` -- encoding.
-/

namespace CborSchema

/-! ## 1. Faults and schemas -/

/-- The faulty declaration an input was refused for. -/
def DecodeError.fault : DecodeError → Option ConfigError
  | .config f => some f
  | _ => none

theorem DecodeError.fault_of_isPlain {e : DecodeError} (h : e.isPlain) : e.fault = none := by
  cases e <;> first | rfl | cases h

/-- The same types with other schemas. How a value is built, how keys compare and how types print
    stays. -/
def Catalog.withSchemas (c : Catalog) (schemas : String → Schema) : Catalog :=
  { c with declared := fun name => { c.declared name with schema := schemas name } }

theorem Catalog.takeSlots_withSchemas (c : Catalog) (schemas : String → Schema) (name : String)
    (takes : List Take) (slots : List (Option Value)) :
    (c.withSchemas schemas).takeSlots name takes slots = c.takeSlots name takes slots := by
  induction takes generalizing slots with
  | nil => rfl
  | cons t ts ih =>
    cases slots with
    | nil => rfl
    | cons slot slots =>
      cases slot with
      | none => simp only [takeSlots, ih]
      | some v =>
        simp only [takeSlots, ih]
        rfl

theorem Catalog.fields_withSchemas (c : Catalog) (schemas : String → Schema) (takes : List Take)
    (p : Parts) : (c.withSchemas schemas).fields takes p = c.fields takes p := by
  unfold fields
  split
  · exact c.takeSlots_withSchemas schemas p.name takes _
  · rfl

/-- What is built of an item does not depend on the schemas. -/
theorem Catalog.construct_withSchemas (c : Catalog) (schemas : String → Schema) (t : TypeExpr)
    (s : Shape) (p : Parts) : (c.withSchemas schemas).construct t s p = c.construct t s p := by
  cases t with
  | named name =>
    have hcontent (conversion : Conversion) (asks : Asks) :
        (c.withSchemas schemas).contentOf s conversion p asks =
        c.contentOf s conversion p asks := by
      cases asks with
      | fields takes => simp only [contentOf, fields_withSchemas]
      | _ => rfl
    show (c.withSchemas schemas).constructDeclared _ (c.declared name).conversion s p =
      c.constructDeclared _ (c.declared name).conversion s p
    simp only [constructDeclared, hcontent]
    rfl
  | _ => rfl

/-! ## 2. Outcomes -/

/-- Two outcomes of a run, of which the first took its shapes from `shapes` and the second from
    `shapes'`. They are the same if the types that the first one reached have the same shapes; and a
    faulty declaration that the first one ends with is that of a type it reached. -/
structure Outcome.Asking {ε : Type} (fault : ε → Option ConfigError)
    (shapes shapes' : TypeExpr → Except ConfigError Shape) {α : Type}
    (x x' : Outcome ε α) : Prop where
  same : (∀ t ∈ x.reached, shapes' t = shapes t) → x' = x
  blamed : ∀ e f, x.result = .error e → fault e = some f → ∃ t ∈ x.reached, shapes t = .error f

namespace Outcome.Asking

variable {ε α β : Type} {fault : ε → Option ConfigError}
  {shapes shapes' : TypeExpr → Except ConfigError Shape}

/-- What reaches no type ends with no faulty declaration. -/
theorem ofExcept {x : Except ε α} (h : ∀ e, x = .error e → fault e = none) :
    Asking fault shapes shapes' (Outcome.ofExcept x) (Outcome.ofExcept x) := by
  refine ⟨fun _ => rfl, fun e f he hf => ?_⟩
  rw [h e he] at hf
  cases hf

theorem pure (a : α) :
    Asking fault shapes shapes' (Pure.pure a : Outcome ε α) (Pure.pure a) :=
  ofExcept (x := .ok a) fun _ he => by cases he

theorem fail {e : ε} (h : fault e = none) :
    Asking fault shapes shapes' (Outcome.fail e : Outcome ε α) (Outcome.fail e) :=
  ofExcept fun e' he => by cases he; exact h

/-- A type that is reached. -/
theorem reach {c c' : Catalog} {faulty : ConfigError → ε} (h : ∀ f, fault (faulty f) = some f)
    (t : TypeExpr) : Asking fault shapes shapes' ((⟨c, shapes⟩ : Codec).reach faulty t)
      ((⟨c', shapes'⟩ : Codec).reach faulty t) := by
  constructor
  · intro hsame
    have hs : shapes' t = shapes t := hsame t List.mem_cons_self
    show (⟨(shapes' t).mapError faulty, [t]⟩ : Outcome ε Shape) = ⟨(shapes t).mapError faulty, [t]⟩
    rw [hs]
  · intro e f he hf
    refine ⟨t, List.mem_cons_self, ?_⟩
    have he : (shapes t).mapError faulty = .error e := he
    cases hs : shapes t with
    | ok s =>
      rw [hs] at he
      cases he
    | error g =>
      rw [hs] at he
      cases he
      rw [h g] at hf
      cases hf
      rfl

/-- What the next step reaches counts with what the first one reached. -/
theorem bind_ok {x x' : Outcome ε α} {f f' : α → Outcome ε β}
    (hx : Asking fault shapes shapes' x x')
    (hf : ∀ a, x.result = .ok a → Asking fault shapes shapes' (f a) (f' a)) :
    Asking fault shapes shapes' (x >>= f) (x' >>= f') := by
  have hfirst {t : TypeExpr} (ht : t ∈ x.reached) : t ∈ (x >>= f).reached := by
    rw [reached_bind]
    exact List.mem_append_left _ ht
  have hnext {t : TypeExpr} {a : α} (ha : x.result = .ok a) (ht : t ∈ (f a).reached) :
      t ∈ (x >>= f).reached := by
    rw [reached_bind, ha]
    exact List.mem_append_right _ ht
  constructor
  · intro hsame
    obtain rfl := hx.same fun t ht => hsame t (hfirst ht)
    show x'.bind f' = x'.bind f
    unfold Outcome.bind
    cases ha : x'.result with
    | error e => rfl
    | ok a => simp only [(hf a ha).same fun t ht => hsame t (hnext ha ht)]
  · intro e g he hg
    rw [result_bind] at he
    cases hr : x.result with
    | error e' =>
      rw [hr] at he
      cases he
      obtain ⟨t, ht, hs⟩ := hx.blamed e g hr hg
      exact ⟨t, hfirst ht, hs⟩
    | ok a =>
      rw [hr] at he
      obtain ⟨t, ht, hs⟩ := (hf a hr).blamed e g he hg
      exact ⟨t, hnext hr ht, hs⟩

theorem bind {x x' : Outcome ε α} {f f' : α → Outcome ε β} (hx : Asking fault shapes shapes' x x')
    (hf : ∀ a, Asking fault shapes shapes' (f a) (f' a)) :
    Asking fault shapes shapes' (x >>= f) (x' >>= f') := hx.bind_ok fun a _ => hf a

end Outcome.Asking

variable {c : Catalog} {shapes shapes' : TypeExpr → Except ConfigError Shape}
  {schemas : String → Schema}

/-! ## 3. Decoding -/

/-- Two outcomes of a decoder on two codecs. -/
abbrev DecodesAsking (shapes shapes' : TypeExpr → Except ConfigError Shape) (α : Type)
    (x x' : Outcome DecodeError α) : Prop := x.Asking DecodeError.fault shapes shapes' x'

/-- **Readers ask for nothing but what their parts ask for.** -/
theorem asking_relation : OutcomeRelation (DecodesAsking shapes shapes') where
  ofExcept h := .ofExcept fun e he => DecodeError.fault_of_isPlain (h e he)
  bind hx hf := hx.bind hf

/-- A part that must use up its bytes. -/
theorem whole_asking {d d' : Decoder Value}
    (h : Decoder.Related (DecodesAsking shapes shapes') d d') (span : Bytes) :
    DecodesAsking shapes shapes' Value (d.whole span) (d'.whole span) := by
  refine (h span).bind ?_
  rintro ⟨v, rest⟩
  dsimp only
  split
  · exact .pure v
  · exact .fail rfl

/-- A candidate that fits, or is faulty, ends the run; no other is reached. -/
theorem firstCandidate_ends {r : Reading} {t : TypeExpr} {ts : List TypeExpr} {name : String}
    {span : Bytes} {failed : List (String × DecodeError)}
    (h : ∀ e, ((r.part t).whole span).result = .error e → ∃ f, e = .config f) :
    firstCandidate r c name span failed (t :: ts) = (r.part t).whole span := by
  rw [firstCandidate]
  generalize (r.part t).whole span = x at h ⊢
  obtain ⟨result, reached⟩ := x
  cases result with
  | ok v => rfl
  | error e =>
    obtain ⟨f, rfl⟩ := h e rfl
    rfl

/-- A candidate that mismatches is followed by the next one. -/
theorem firstCandidate_goes_on {r : Reading} {t : TypeExpr} {ts : List TypeExpr} {name : String}
    {span : Bytes} {failed : List (String × DecodeError)} {e : DecodeError}
    (he : ((r.part t).whole span).result = .error e) (hc : ∀ f, e ≠ .config f) :
    firstCandidate r c name span failed (t :: ts) =
      let others := firstCandidate r c name span (failed ++ [(c.printName t, e)]) ts
      ⟨others.result, ((r.part t).whole span).reached ++ others.reached⟩ := by
  rw [firstCandidate]
  generalize (r.part t).whole span = x at he ⊢
  obtain ⟨result, reached⟩ := x
  cases he
  cases e with
  | config f => exact absurd rfl (hc f)
  | _ => rfl

/-- **Of the candidates only those up to the first that fits are asked for.** -/
theorem firstCandidate_asking {r r' : Reading} {ts : List TypeExpr}
    (hpart : ∀ t ∈ ts, Decoder.Related (DecodesAsking shapes shapes') (r.part t) (r'.part t))
    (name : String) (span : Bytes) (failed : List (String × DecodeError)) :
    DecodesAsking shapes shapes' Value (firstCandidate r c name span failed ts)
      (firstCandidate r' (c.withSchemas schemas) name span failed ts) := by
  induction ts generalizing failed with
  | nil => exact .fail rfl
  | cons t ts ih =>
    obtain ⟨ht, hts⟩ := List.forall_mem_cons.mp hpart
    have htrial := whole_asking ht span
    -- only behind a mismatch is another candidate tried, and then the types of both trials are
    -- reached
    by_cases hgo : ∃ e, ((r.part t).whole span).result = .error e ∧ ∀ f, e ≠ .config f
    · obtain ⟨e, he, hc⟩ := hgo
      have hothers := ih hts (failed ++ [(c.printName t, e)])
      rw [firstCandidate_goes_on he hc]
      constructor
      · intro hsame
        have htrial' := htrial.same fun t' ht' => hsame t' (List.mem_append_left _ ht')
        have hothers' := hothers.same fun t' ht' => hsame t' (List.mem_append_right _ ht')
        have he' : ((r'.part t).whole span).result = .error e := by rw [htrial', he]
        rw [firstCandidate_goes_on he' hc, htrial']
        exact congrArg (fun x : Outcome DecodeError Value =>
          (⟨x.result, ((r.part t).whole span).reached ++ x.reached⟩ : Outcome DecodeError Value))
            hothers'
      · intro e' f he' hf
        obtain ⟨t', ht', hs⟩ := hothers.blamed e' f he' hf
        exact ⟨t', List.mem_append_right _ ht', hs⟩
    · have hends : ∀ e, ((r.part t).whole span).result = .error e → ∃ f, e = .config f := by
        intro e he
        by_contra hc
        exact hgo ⟨e, he, fun f hf => hc ⟨f, hf⟩⟩
      rw [firstCandidate_ends hends]
      refine ⟨fun hsame => ?_, htrial.blamed⟩
      have htrial' := htrial.same hsame
      rw [firstCandidate_ends (by rwa [htrial']), htrial']

/-- A shape that a decoder reached. -/
theorem shape_asking (t : TypeExpr) :
    Decoder.Related (DecodesAsking shapes shapes') ((⟨c, shapes⟩ : Codec).shape t)
      ((⟨c.withSchemas schemas, shapes'⟩ : Codec).shape t) :=
  have hfault : ∀ f, (DecodeError.config f).fault = some f := fun _ => rfl
  fun bytes => (Outcome.Asking.reach hfault t).bind fun s => .pure (s, bytes)

/-- **A value is read by asking for the shapes of the types reached**, by induction on the nesting
    that is left. -/
theorem Codec.read_asking (o : DecodeOptions) (depth : Nat) (t : TypeExpr) :
    Decoder.Related (DecodesAsking shapes shapes') ((⟨c, shapes⟩ : Codec).read o depth t)
      ((⟨c.withSchemas schemas, shapes'⟩ : Codec).read o depth t) := by
  induction depth generalizing t with
  | zero => exact asking_relation.andThen (shape_asking t) fun _ => asking_relation.fail rfl
  | succ depth ih =>
    refine asking_relation.andThen (shape_asking t) fun s => ?_
    have hr : Reading.Related (DecodesAsking shapes shapes') s
        ((⟨c, shapes⟩ : Codec).reading o depth)
        ((⟨c.withSchemas schemas, shapes'⟩ : Codec).reading o depth) :=
      ⟨rfl, rfl, rfl, fun t' _ => ih t'⟩
    have hunion : s.kind = .union → Decoder.Related (DecodesAsking shapes shapes')
        (s.readUnion ((⟨c, shapes⟩ : Codec).reading o depth) c)
        (s.readUnion ((⟨c.withSchemas schemas, shapes'⟩ : Codec).reading o depth)
          (c.withSchemas schemas)) := by
      intro _
      refine asking_relation.andThen (asking_relation.scan _) fun span => ?_
      refine asking_relation.andThen (fun rest => ?_) fun v => asking_relation.pure _
      exact (firstCandidate_asking (fun t' _ => ih t') s.name span []).bind fun v => .pure (v, rest)
    refine asking_relation.andThen (readKept_related asking_relation hr hunion) fun parts => ?_
    show Decoder.Related _ (Decoder.ofExcept (c.construct t s parts))
      (Decoder.ofExcept ((c.withSchemas schemas).construct t s parts))
    rw [c.construct_withSchemas]
    exact asking_relation.check (construct_plain c parts t s)

theorem Codec.decode_asking (t : TypeExpr) (bytes : Bytes) (o : DecodeOptions) :
    DecodesAsking shapes shapes' Value ((⟨c, shapes⟩ : Codec).decode t bytes o)
      ((⟨c.withSchemas schemas, shapes'⟩ : Codec).decode t bytes o) := by
  refine (Codec.read_asking o o.maxDepth t bytes).bind ?_
  rintro ⟨v, rest⟩
  dsimp only
  split
  · exact .pure v
  · exact .fail rfl

/-! ## 4. Encoding -/

/-- Two outcomes of a writer on two codecs. -/
abbrev EncodesAsking (shapes shapes' : TypeExpr → Except ConfigError Shape)
    (x x' : Outcome EncodeError Bytes) : Prop := x.Asking EncodeError.fault shapes shapes' x'

/-- **Writers ask for nothing but what their parts ask for.** -/
theorem encodesAsking_relation : WriterRelation
    (fun _ x x' => x.Asking EncodeError.fault shapes shapes' x') where
  ofExcept h := .ofExcept h
  bind hx hf := hx.bind_ok hf

/-- **A value is written by asking for the shapes of the types reached**, by induction on the
    nesting that is left. -/
theorem Codec.write_asking (o : EncodeOptions) (depth : Nat) (t : TypeExpr) (v : Value) :
    EncodesAsking shapes shapes' ((⟨c, shapes⟩ : Codec).write o depth t v)
      ((⟨c.withSchemas schemas, shapes'⟩ : Codec).write o depth t v) := by
  have hfault : ∀ f, (EncodeError.config f).fault = some f := fun _ => rfl
  induction depth generalizing t v with
  | zero => exact (Outcome.Asking.reach hfault t).bind fun _ => .fail rfl
  | succ depth ih =>
    refine (Outcome.Asking.reach hfault t).bind fun s => ?_
    split
    · exact .pure _
    · refine Outcome.Asking.bind (.ofExcept (pieces_faultFree c t v)) fun pieces => ?_
      exact writePieces_related encodesAsking_relation ⟨rfl, fun t v _ => ih t v⟩

theorem Codec.encode_asking (v : Value) (o : EncodeOptions) :
    EncodesAsking shapes shapes' ((⟨c, shapes⟩ : Codec).encode v o)
      ((⟨c.withSchemas schemas, shapes'⟩ : Codec).encode v o) :=
  Codec.write_asking o o.maxDepth v.type v

end CborSchema
