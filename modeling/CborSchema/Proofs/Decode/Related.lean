import CborSchema.Proofs.Decode.Values

/-!
# Two readers side by side

Two runs of one reader, on the same bytes, that differ in how the parts are read. A relation between
outcomes that holds of every step without parts and is kept by the next step holds of the readers of
all kinds but unions, which run their candidates on their own.

* `FailsPlainly` -- what only fails with errors in which no others lie; the checks of a shape
  (`requireFraming_plain` and the others) and `construct_plain` fail so;
* `OutcomeRelation R` -- what `R` has to satisfy; `Decoder.Related` and its rules, one for each way
  decoders are put together;
* `Reading.Related` -- two readings whose parts are related;
* `readKept_related` -- **then so is an item of any kind but a union, and of a union if its
  candidates are.**
-/

namespace CborSchema

variable {α β σ : Type}

/-! ## 1. Plain errors -/

/-- An error in which no other error lies, and that is neither a faulty declaration nor bytes left
    over. -/
def DecodeError.isPlain : DecodeError → Bool
  | .trailingBytes _ => false
  | .noMatchingCandidate _ _ => false
  | .config _ => false
  | _ => true

/-- What only ever fails with plain errors. -/
def FailsPlainly (x : Except DecodeError α) : Prop := ∀ e, x = .error e → e.isPlain

theorem FailsPlainly.bind {x : Except DecodeError α} {f : α → Except DecodeError β}
    (hx : FailsPlainly x) (hf : ∀ a, FailsPlainly (f a)) : FailsPlainly (x >>= f) := by
  cases x with
  | error e =>
    rintro _ ⟨⟩
    exact hx e rfl
  | ok a => exact hf a

theorem FailsPlainly.ok (a : α) : FailsPlainly (.ok a) := by
  intro e he
  cases he

theorem FailsPlainly.error {e : DecodeError} (h : e.isPlain) :
    FailsPlainly (.error e : Except DecodeError α) := by
  rintro _ ⟨⟩
  exact h

theorem FailsPlainly.map {x : Except DecodeError α} (hx : FailsPlainly x) (f : α → β) :
    FailsPlainly (x.map f) := by
  cases x with
  | error e =>
    rintro _ ⟨⟩
    exact hx e rfl
  | ok a => exact .ok (f a)

/-! ## 2. Checks without bytes -/

section checks

variable (s : Shape) (h : Head) (name : String)

theorem requireFraming_plain (indefinite : Bool) : FailsPlainly (s.requireFraming indefinite) := by
  unfold Shape.requireFraming
  split
  · exact .error rfl
  · exact .error rfl
  · exact .ok ()

theorem checkSize_plain (payload : Bytes) : FailsPlainly (s.checkSize payload) := by
  unfold Shape.checkSize
  split
  · exact .ok ()
  · split
    · exact .ok ()
    · exact .error rfl

theorem truth_plain : FailsPlainly (h.truth name) := by
  unfold Head.truth
  split
  · split
    · exact .ok false
    · split
      · exact .ok true
      · exact .error rfl
  · exact .error rfl

theorem null_plain : FailsPlainly (h.null name) := by
  unfold Head.null
  split
  · split
    · exact .ok ()
    · exact .error rfl
  · exact .error rfl

theorem uint_plain : FailsPlainly (h.uint name) := by
  unfold Head.uint
  split
  · exact .ok _
  · exact .error rfl

theorem int_plain : FailsPlainly (h.int name) := by
  unfold Head.int
  split
  · exact .ok _
  · exact .ok _
  · exact .error rfl

theorem readText_plain (payload : Bytes) : FailsPlainly (readText payload name) := by
  unfold readText
  split
  · exact .ok _
  · exact .error rfl

theorem checkIndex_plain (index : UInt64) : FailsPlainly (s.checkIndex index) := by
  unfold Shape.checkIndex
  split
  · split
    · exact .ok ()
    · exact .error rfl
  · split
    · exact .ok ()
    · exact .error rfl
  · exact .ok ()

theorem checkPresent_plain (found : Found) (fields : List Field) :
    FailsPlainly (checkPresent name found fields) := by
  induction fields with
  | nil => exact .ok ()
  | cons f fs ih =>
    rw [checkPresent]
    split
    · exact .error rfl
    · exact ih

end checks
/-! ## 3. Values that are not built -/

theorem FailsPlainly.mapM {f : α → Except DecodeError β} (hf : ∀ a, FailsPlainly (f a))
    (as : List α) : FailsPlainly (as.mapM f) := by
  induction as with
  | nil => exact .ok []
  | cons a as ih =>
    rw [List.mapM_cons]
    exact (hf a).bind fun b => ih.bind fun bs => .ok (b :: bs)

section construct

variable (c : Catalog) (p : Parts)

theorem take_plain (form : ScalarForm) (scalar : Scalar) : FailsPlainly (form.take scalar) := by
  unfold ScalarForm.take
  split
  all_goals first
    | exact .ok _
    | exact .error rfl
    | (split; exact .ok _; exact .error rfl)

theorem scalar_plain (form : ScalarForm) : FailsPlainly (p.scalar form) := by
  unfold Parts.scalar
  split
  · exact take_plain form _
  · exact .error rfl

theorem variant_plain (accepted : Option (List TypeExpr)) : FailsPlainly (p.variant accepted) := by
  unfold Parts.variant
  split
  · exact .ok _
  · split
    · exact .ok _
    · exact .error rfl
  · exact .error rfl

theorem ofType_plain (t : TypeExpr) (v : Value) : FailsPlainly (c.ofType t v) := by
  unfold Catalog.ofType
  split
  · exact .ok v
  · exact .error rfl

theorem items_plain (item : TypeExpr) : FailsPlainly (c.items item p) := by
  unfold Catalog.items
  split
  · exact .mapM (ofType_plain c item) _
  · exact .error rfl

theorem entries_plain (key value : TypeExpr) : FailsPlainly (c.entries key value p) := by
  unfold Catalog.entries
  split
  · refine .mapM (fun e => ?_) _
    exact (ofType_plain c key e.1).bind fun k => (ofType_plain c value e.2).bind fun v => .ok (k, v)
  · exact .error rfl

theorem takeSlots_plain (name : String) (takes : List Take) (slots : List (Option Value)) :
    FailsPlainly (c.takeSlots name takes slots) := by
  induction takes generalizing slots with
  | nil =>
    rw [Catalog.takeSlots]
    exact .ok _
  | cons t ts ih =>
    cases slots with
    | nil =>
      rw [Catalog.takeSlots]
      exact .error rfl
    | cons slot slots =>
      cases slot with
      | none =>
        rw [Catalog.takeSlots]
        split
        · exact (ih slots).bind fun taken => .ok _
        · exact .error rfl
      | some v =>
        rw [Catalog.takeSlots]
        exact (ofType_plain c t.type v).bind fun v => (ih slots).bind fun taken => .ok _

theorem fields_plain (takes : List Take) : FailsPlainly (c.fields takes p) := by
  unfold Catalog.fields
  split
  · exact takeSlots_plain c p.name takes _
  · exact .error rfl

theorem contentOf_plain (s : Shape) (conversion : Conversion) (asks : Asks) :
    FailsPlainly (c.contentOf s conversion p asks) := by
  cases asks with
  | byShape => exact (scalar_plain p _).bind fun _ => .ok _
  | scalar => exact (scalar_plain p _).bind fun _ => .ok _
  | variant accepted => exact (variant_plain p accepted).bind fun _ => .ok _
  | items item => exact (items_plain c p item).bind fun _ => .ok _
  | entries key value => exact (entries_plain c p key value).bind fun _ => .ok _
  | fields takes => exact (fields_plain c p _).bind fun _ => .ok _

/-- **A value that is not built is refused plainly.** -/
theorem construct_plain (t : TypeExpr) (s : Shape) : FailsPlainly (c.construct t s p) := by
  have scalar (t : TypeExpr) (form : ScalarForm) :
      FailsPlainly (Catalog.constructScalar t form p) := (scalar_plain p form).bind fun _ => .ok _
  cases t with
  | bool | uint64 | uint32 | int64 | text | bytes | null => exact scalar _ _
  | embedded =>
    rw [Catalog.construct]
    split
    · exact .ok _
    · exact .error rfl
    · exact .error rfl
  | list item | framedList item | taggedSet item =>
    exact (items_plain c p item).bind fun _ => .ok _
  | map key value =>
    refine (entries_plain c p key value).bind fun es => ?_
    split
    · exact .ok _
    · exact .error rfl
  | anyConstructor field =>
    rw [Catalog.construct]
    split
    · exact (items_plain c p field).bind fun _ => .ok _
    · exact .error rfl
  | named name =>
    rw [Catalog.construct, Catalog.constructDeclared]
    split
    · exact .error rfl
    · exact (contentOf_plain c p s _ _).bind fun _ => .ok _

end construct
/-! ## 4. Relations -/

/-- A relation between outcomes that the readers preserve. -/
structure OutcomeRelation
    (R : ∀ α : Type, Outcome DecodeError α → Outcome DecodeError α → Prop) : Prop where
  /-- It holds of an answer that reaches no type. -/
  ofExcept : ∀ {α : Type} {x : Except DecodeError α}, FailsPlainly x →
    R α (Outcome.ofExcept x) (Outcome.ofExcept x)
  bind : ∀ {α β : Type} {x x' : Outcome DecodeError α} {f f' : α → Outcome DecodeError β},
    R α x x' → (∀ a, R β (f a) (f' a)) → R β (x >>= f) (x' >>= f')

variable {R : ∀ α : Type, Outcome DecodeError α → Outcome DecodeError α → Prop}

namespace Decoder

/-- On all bytes the outcomes are related. -/
def Related (R : ∀ α : Type, Outcome DecodeError α → Outcome DecodeError α → Prop)
    (d d' : Decoder α) : Prop := ∀ bytes, R (α × Bytes) (d bytes) (d' bytes)

end Decoder

namespace OutcomeRelation

variable (hR : OutcomeRelation R)
include hR

theorem pure (a : α) : Decoder.Related R (Pure.pure a : Decoder α) (Pure.pure a) :=
  fun bytes => hR.ofExcept (.ok (a, bytes))

theorem fail {e : DecodeError} (h : e.isPlain) :
    Decoder.Related R (Decoder.fail e : Decoder α) (Decoder.fail e) :=
  fun _ => hR.ofExcept (.error h)

theorem check {x : Except DecodeError α} (h : FailsPlainly x) :
    Decoder.Related R (Decoder.ofExcept x) (Decoder.ofExcept x) :=
  fun _ => hR.ofExcept (h.map _)

/-- A scan fails with a wire error. -/
theorem scan (s : Scan α) : Decoder.Related R (liftM s : Decoder α) (liftM s) := by
  intro bytes
  show R _ (Decoder.ofScan s bytes) (Decoder.ofScan s bytes)
  unfold Decoder.ofScan
  split
  · exact hR.ofExcept (.ok _)
  · exact hR.ofExcept (.error rfl)

theorem andThen {d d' : Decoder α} {f f' : α → Decoder β} (hd : Decoder.Related R d d')
    (hf : ∀ a, Decoder.Related R (f a) (f' a)) : Decoder.Related R (d >>= f) (d' >>= f') :=
  fun bytes => hR.bind (hd bytes) fun p => hf p.1 p.2

theorem spanned {d d' : Decoder α} (hd : Decoder.Related R d d') :
    Decoder.Related R d.spanned d'.spanned :=
  fun bytes => hR.bind (hd bytes) fun _ => hR.ofExcept (.ok _)

theorem times {step step' : σ → Decoder σ} (h : ∀ s, Decoder.Related R (step s) (step' s)) (n : Nat)
    (s : σ) : Decoder.Related R (Decoder.times step n s) (Decoder.times step' n s) := by
  induction n generalizing s with
  | zero => exact hR.pure s
  | succ n ih => exact hR.andThen (h s) ih

theorem untilBreak {step step' : σ → Decoder σ} (h : ∀ s, Decoder.Related R (step s) (step' s))
    (turns : Nat) (s : σ) :
    Decoder.Related R (Decoder.untilBreak step turns s) (Decoder.untilBreak step' turns s) := by
  induction turns generalizing s with
  | zero => exact hR.fail rfl
  | succ turns ih =>
    refine hR.andThen (hR.scan Scan.atBreak) fun b => ?_
    split
    · exact hR.andThen (hR.scan _) fun _ => hR.pure s
    · exact hR.andThen (h s) ih

theorem fold {step step' : σ → Decoder σ} (h : ∀ s, Decoder.Related R (step s) (step' s))
    (e : Pending) (s : σ) : Decoder.Related R (e.fold step s) (e.fold step' s) := by
  cases e with
  | counted n => exact hR.times h n s
  | toBreak => exact fun bytes => hR.untilBreak h (bytes.length + 1) s bytes

theorem another (e : Pending) : Decoder.Related R e.another e.another := by
  cases e with
  | counted n => cases n <;> exact hR.pure _
  | toBreak =>
    refine hR.andThen (hR.scan Scan.atBreak) fun b => ?_
    split
    · exact hR.andThen (hR.scan _) fun _ => hR.pure _
    · exact hR.pure _

end OutcomeRelation

/-! ## 5. Readers -/

/-- The types of the parts of a shape. -/
def Shape.partTypes (s : Shape) : List TypeExpr :=
  s.candidates ++
    match s.layout with
    | none => []
    | some (.fields fields) => fields.filterMap fun f =>
      match f.body with
      | .value type _ => some type
      | .literal _ => none
    | some (.items item) => [item]
    | some (.entries key value) => [key, value]

theorem Shape.candidate_mem {s : Shape} {t : TypeExpr} (h : t ∈ s.candidates) : t ∈ s.partTypes :=
  List.mem_append_left _ h

theorem Shape.item_mem {s : Shape} {item : TypeExpr} (hl : s.layout = some (.items item)) :
    item ∈ s.partTypes := by
  simp [partTypes, hl]

theorem Shape.entry_mem {s : Shape} {key value : TypeExpr}
    (hl : s.layout = some (.entries key value)) : key ∈ s.partTypes ∧ value ∈ s.partTypes := by
  simp [partTypes, hl]

theorem Shape.field_mem {s : Shape} {fields : List Field} (hl : s.layout = some (.fields fields))
    {f : Field} (hf : f ∈ fields) {type : TypeExpr} {presence : Presence}
    (hb : f.body = .value type presence) : type ∈ s.partTypes := by
  rw [partTypes, hl]
  refine List.mem_append_right _ (List.mem_filterMap.mpr ⟨f, hf, ?_⟩)
  rw [hb]
/-- Two readings of a shape with the same limits, whose parts are related. -/
structure Reading.Related (R : ∀ α : Type, Outcome DecodeError α → Outcome DecodeError α → Prop)
    (s : Shape) (r r' : Reading) : Prop where
  collection : r.options.maxCollectionLength = r'.options.maxCollectionLength
  string : r.options.maxStringLength = r'.options.maxStringLength
  depth : r.depth = r'.depth
  part : ∀ t ∈ s.partTypes, Decoder.Related R (r.part t) (r'.part t)

section readers

variable (hR : OutcomeRelation R) {s : Shape} {r r' : Reading} (hr : Reading.Related R s r r')
include hR hr

theorem openCollection_related (m : Major) :
    Decoder.Related R (s.openCollection r m) (s.openCollection r' m) := by
  refine hR.andThen (hR.scan _) fun h => ?_
  split
  · exact hR.fail rfl
  · refine hR.andThen (hR.check (requireFraming_plain s _)) fun _ => ?_
    split
    · exact hR.pure _
    · rw [hr.collection]
      exact hR.andThen (hR.scan _) fun n => hR.pure _

theorem readPayload_related (m : Major) (h : Head) :
    Decoder.Related R (s.readPayload r m h) (s.readPayload r' m h) := by
  rw [Shape.readPayload, Shape.readPayload, hr.string]
  split
  · exact hR.fail rfl
  · refine hR.andThen (hR.check (requireFraming_plain s _)) fun _ => ?_
    refine hR.andThen (hR.scan _) fun payload => ?_
    exact hR.andThen (hR.check (checkSize_plain s payload)) fun _ => hR.pure payload

theorem readScalar_related (p : Primitive) :
    Decoder.Related R (s.readScalar r p) (s.readScalar r' p) := by
  refine hR.andThen (hR.scan _) fun h => hR.andThen ?_ fun scalar => hR.pure _
  cases p with
  | bool => exact hR.andThen (hR.check (truth_plain h s.name)) fun b => hR.pure _
  | null => exact hR.andThen (hR.check (null_plain h s.name)) fun _ => hR.pure _
  | uint => exact hR.andThen (hR.check (uint_plain h s.name)) fun n => hR.pure _
  | int => exact hR.check (int_plain h s.name)
  | bytes => exact hR.andThen (readPayload_related hR hr .bytes h) fun payload => hR.pure _
  | embedded => exact hR.andThen (readPayload_related hR hr .bytes h) fun payload => hR.pure _
  | text =>
    refine hR.andThen (readPayload_related hR hr .text h) fun payload => ?_
    exact hR.andThen (hR.check (readText_plain s.name payload)) fun text => hR.pure _

theorem expectLiteral_related (key : FieldKey) (l : Literal) :
    Decoder.Related R (expectLiteral s.name r.options.maxStringLength key l)
      (expectLiteral s.name r'.options.maxStringLength key l) := by
  rw [hr.string]
  refine hR.andThen (hR.scan _) fun h => hR.andThen ?_ fun b => ?_
  · cases l with
    | int n => exact hR.pure _
    | bool b => exact hR.pure _
    | text t =>
      rw [matchesLiteral]
      split
      · exact hR.andThen (hR.scan _) fun payload => hR.pure _
      · exact hR.pure false
  · split
    · exact hR.pure ()
    · exact hR.fail rfl

theorem readSlot_related {type : TypeExpr} (ht : type ∈ s.partTypes) (presence : Presence) :
    Decoder.Related R (readSlot r s.name type presence) (readSlot r' s.name type presence) := by
  rw [readSlot, readSlot]
  split
  · refine hR.andThen (hR.scan _) fun b => ?_
    split
    · exact hR.andThen (hR.scan _) fun _ => hR.pure none
    · exact hR.andThen (hr.part type ht) fun v => hR.pure _
  · exact hR.andThen (hr.part type ht) fun v => hR.pure _

theorem readByPosition_related {fields : List Field}
    (hf : ∀ f ∈ fields, ∀ type presence, f.body = .value type presence → type ∈ s.partTypes)
    (e : Pending) :
    Decoder.Related R (readByPosition r s.name fields e) (readByPosition r' s.name fields e) := by
  induction fields generalizing e with
  | nil => exact hR.pure _
  | cons f fs ih =>
    have ih := fun e => ih (fun f' hf' => hf f' (List.mem_cons_of_mem f hf')) e
    rw [readByPosition, readByPosition]
    refine hR.andThen (hR.another e) fun p => ?_
    obtain ⟨more, e⟩ := p
    dsimp only
    split
    · split
      · exact hR.andThen (expectLiteral_related hR hr f.key _) fun _ => ih e
      · rename_i type presence hb
        refine hR.andThen (readSlot_related hR hr
          (hf f List.mem_cons_self type presence hb) presence) ?_
        exact fun slot => hR.andThen (ih e) fun slots => hR.pure _
    · split
      · exact hR.andThen (ih e) fun slots => hR.pure _
      · exact hR.fail rfl

theorem readArray_related : Decoder.Related R (s.readArray r) (s.readArray r') := by
  refine hR.andThen (openCollection_related hR hr .array) fun e => ?_
  split
  · rename_i item hl
    refine hR.andThen (hR.andThen (hR.fold (fun rev => ?_) e []) fun rev => hR.pure _)
      fun items => hR.pure _
    exact hR.andThen (hr.part item (Shape.item_mem hl)) fun v => hR.pure _
  · rename_i fields hl
    refine hR.andThen ?_ fun slots => hR.pure _
    refine hR.andThen (readByPosition_related hR hr
      (fun f hf _ _ hb => Shape.field_mem hl hf hb) e) ?_
    rintro ⟨slots, e⟩
    refine hR.andThen (hR.fold (fun n => ?_) e 0) fun extra => ?_
    · rw [hr.depth]
      exact hR.andThen (hR.scan _) fun _ => hR.pure _
    · split
      · exact hR.fail rfl
      · exact hR.pure slots
  · exact hR.fail rfl

theorem readKeyItem_related : Decoder.Related R (readKeyItem r) (readKeyItem r') := by
  rw [readKeyItem, readKeyItem, hr.string, hr.depth]
  refine hR.andThen (hR.scan _) fun h => ?_
  split
  · exact hR.andThen (hR.scan _) fun _ => hR.pure _
  · exact hR.andThen (hR.scan _) fun _ => hR.pure _
  · refine hR.andThen (hR.scan _) fun h => hR.andThen (hR.scan _) fun payload => ?_
    exact hR.andThen (hR.check (readText_plain _ payload)) fun text => hR.pure _
  · exact hR.andThen (hR.scan _) fun _ => hR.pure _

theorem readKeyedEntry_related {fields : List Field} (hl : s.layout = some (.fields fields))
    (found : Found) :
    Decoder.Related R (s.readKeyedEntry r fields found) (s.readKeyedEntry r' fields found) := by
  refine hR.andThen (readKeyItem_related hR hr) fun key => ?_
  split
  · split
    · rw [hr.depth]
      exact hR.andThen (hR.scan _) fun _ => hR.pure found
    · exact hR.fail rfl
  · rename_i f hf
    split
    · exact hR.fail rfl
    · split
      · exact hR.andThen (expectLiteral_related hR hr f.key _) fun _ => hR.pure _
      · rename_i type presence hb
        have hmem := Shape.field_mem hl (List.mem_of_find?_eq_some hf) hb
        exact hR.andThen (hr.part type hmem) fun v => hR.pure _

theorem readMap_related : Decoder.Related R (s.readMap r) (s.readMap r') := by
  refine hR.andThen (openCollection_related hR hr .map) fun e => ?_
  split
  · rename_i key value hl
    obtain ⟨hkey, hvalue⟩ := Shape.entry_mem hl
    refine hR.andThen (hR.andThen (hR.fold (fun seen => ?_) e []) fun rev => hR.pure _)
      fun entries => hR.pure _
    refine hR.andThen (hR.spanned (hr.part key hkey)) fun p => ?_
    dsimp only
    split
    · exact hR.fail rfl
    · exact hR.andThen (hr.part value hvalue) fun v => hR.pure _
  · rename_i fields hl
    refine hR.andThen ?_ fun slots => hR.pure _
    refine hR.andThen (hR.fold (readKeyedEntry_related hR hr hl) e []) fun found => ?_
    exact hR.andThen (hR.check (checkPresent_plain s.name found fields)) fun _ => hR.pure _
  · exact hR.fail rfl

theorem readConstructor_related :
    Decoder.Related R (s.readConstructor r) (s.readConstructor r') := by
  refine hR.andThen (hR.andThen (hR.scan _) fun h => ?_) fun index => ?_
  · split
    · exact hR.fail rfl
    · dsimp only
      split
      · exact hR.pure _
      · split
        · refine hR.andThen (hR.scan _) fun pair => ?_
          split
          · exact hR.fail rfl
          · refine hR.andThen (hR.scan _) fun index => ?_
            split
            · exact hR.pure _
            · exact hR.fail rfl
        · exact hR.fail rfl
  · refine hR.andThen (hR.check (checkIndex_plain s index)) fun _ => ?_
    exact hR.andThen (readArray_related hR hr) fun parts => hR.pure _

/-! ## 6. Items -/

section items

variable {catalog catalog' : Catalog} (hunion : s.kind = .union →
  Decoder.Related R (s.readUnion r catalog) (s.readUnion r' catalog'))
include hunion

theorem readKind_related : Decoder.Related R (s.readKind r catalog) (s.readKind r' catalog') := by
  rw [Shape.readKind, Shape.readKind]
  cases hk : s.kind with
  | scalar p => exact readScalar_related hR hr p
  | list => exact readArray_related hR hr
  | map => exact readMap_related hR hr
  | constructor => exact readConstructor_related hR hr
  | union => exact hunion hk

theorem readItem_related : Decoder.Related R (s.readItem r catalog) (s.readItem r' catalog') := by
  refine hR.andThen ?_ fun tagged =>
    hR.andThen (readKind_related hR hr hunion) fun _ => hR.pure _
  rw [Shape.readTagBefore]
  split
  · exact hR.pure false
  · refine hR.andThen (hR.scan _) fun h => ?_
    split
    · split
      · exact hR.fail rfl
      · exact hR.pure false
    · dsimp only
      split
      · exact hR.fail rfl
      · exact hR.andThen (hR.scan _) fun _ => hR.pure true

/-- **Items are related whose parts are**, whatever their kind, if those of a union are. -/
theorem readKept_related : Decoder.Related R (s.readKept r catalog) (s.readKept r' catalog') := by
  have h := readItem_related hR hr hunion
  rw [Shape.readKept, Shape.readKept]
  split
  · exact hR.andThen (hR.spanned h) fun _ => hR.pure _
  · exact h

end items

end readers

end CborSchema
