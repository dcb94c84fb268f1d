import CborSchema.Proofs.Encode.Cuts

/-!
# Relations between two runs of a writer

What holds of two runs of every part holds of two runs of an item: the writers of the kinds only put
their parts in a row, and ask for nothing but them.

* `FaultFree` -- the checks of the writers blame no declaration;
* `WriterRelation` -- a relation between outcomes that steps preserve;
* `Writing.Related` -- the parts of a value are written in related ways;
* `writePieces_related` -- **then so is the item**, whatever its kind.
-/

namespace CborSchema

/-! ## 1. Checks -/

/-- The faulty declaration a value was refused for. -/
def EncodeError.fault : EncodeError → Option ConfigError
  | .config f => some f
  | _ => none

/-- What fails for no faulty declaration. -/
def FaultFree {α : Type} (x : Except EncodeError α) : Prop := ∀ e, x = .error e → e.fault = none

namespace FaultFree

variable {α β : Type}

theorem ok (a : α) : FaultFree (.ok a) := fun _ he => by cases he

theorem error {e : EncodeError} (h : e.fault = none) :
    FaultFree (.error e : Except EncodeError α) :=
  fun e' he => by cases he; exact h

theorem bind {x : Except EncodeError α} {f : α → Except EncodeError β} (hx : FaultFree x)
    (hf : ∀ a, FaultFree (f a)) : FaultFree (x >>= f) := by
  cases x with
  | ok a => exact hf a
  | error e => exact .error (hx e rfl)

end FaultFree

section checks

variable (s : Shape)

theorem alignSlots_faultFree (fields : List Field) (slots : List (Option Value)) :
    FaultFree (s.alignSlots fields slots) := by
  unfold Shape.alignSlots
  split
  · exact .ok _
  · exact .error rfl

theorem checkSlots_faultFree (name : String) (entries : List (Field × Option Value)) :
    FaultFree (checkSlots name entries) := by
  induction entries with
  | nil => exact .ok ()
  | cons entry entries ih =>
    rw [checkSlots]
    split
    · exact .error rfl
    · exact ih

theorem constructorIndex_faultFree (pieces : Pieces) : FaultFree (s.constructorIndex pieces) := by
  unfold Shape.constructorIndex
  split
  · exact .ok _
  · exact .ok _
  · exact .ok _
  · exact .error rfl

theorem pieces_faultFree (c : Catalog) (t : TypeExpr) (v : Value) : FaultFree (c.pieces t v) := by
  unfold Catalog.pieces
  split
  · exact .error rfl
  · split
    · refine FaultFree.bind ?_ fun _ => .ok _
      unfold Scalar.forWriting
      split
      · split
        · exact .ok _
        · exact .error rfl
      · exact .ok _
    · exact .ok _

theorem requireWidth_faultFree (n : UInt64) : FaultFree (s.requireWidth n) := by
  unfold Shape.requireWidth
  split
  · exact .ok ()
  · exact .error rfl

theorem writePayload_faultFree (style : Option ItemStyle) (m : Major) (payload : Bytes)
    (pieces : Nat → List Bytes) : FaultFree (s.writePayload style m payload pieces) := by
  have hlast : FaultFree (if s.chunked style payload.length then
      pure (chunkedBytes m (pieces (s.chunkSize.getD Limits.chunk)))
    else pure (stringBytes m payload) : Except EncodeError Bytes) := by
    split
    · exact .ok _
    · exact .ok _
  rw [Shape.writePayload]
  cases s.size with
  | none => exact hlast
  | some size =>
    dsimp only
    split
    · exact .error rfl
    · exact hlast

theorem writeScalar_faultFree (p : Primitive) (pieces : Pieces) :
    FaultFree (s.writeScalar p pieces) := by
  unfold Shape.writeScalar
  split
  · unfold Shape.writeScalarOf
    split
    · exact .ok _
    · exact .ok _
    · exact (requireWidth_faultFree s _).bind fun _ => .ok _
    · exact (requireWidth_faultFree s _).bind fun _ => .ok _
    · exact (requireWidth_faultFree s _).bind fun _ => .ok _
    · exact writePayload_faultFree s _ _ _ _
    · exact writePayload_faultFree s _ _ _ _
    · exact writePayload_faultFree s _ _ _ _
    · exact .error rfl
  · exact .error rfl

end checks

/-! ## 2. Relations -/

/-- A relation between outcomes that the writers preserve. -/
structure WriterRelation
    (R : ∀ α : Type, Outcome EncodeError α → Outcome EncodeError α → Prop) : Prop where
  /-- It holds of an answer that reaches no type. -/
  ofExcept : ∀ {α : Type} {x : Except EncodeError α}, FaultFree x →
    R α (Outcome.ofExcept x) (Outcome.ofExcept x)
  /-- Of the next steps it must hold only where the first one answers. -/
  bind : ∀ {α β : Type} {x x' : Outcome EncodeError α} {f f' : α → Outcome EncodeError β},
    R α x x' → (∀ a, x.result = .ok a → R β (f a) (f' a)) → R β (x >>= f) (x' >>= f')

/-- A last step that cannot fail. -/
theorem Outcome.map_eq_bind {ε α β : Type} (f : α → β) (x : Outcome ε α) :
    x.map f = x >>= fun a => pure (f a) := by
  obtain ⟨result, reached⟩ := x
  cases result with
  | error e => rfl
  | ok a => rfl

variable {R : ∀ α : Type, Outcome EncodeError α → Outcome EncodeError α → Prop}

namespace WriterRelation

variable (hR : WriterRelation R) {α β : Type}
include hR

theorem pure (a : α) : R α (Pure.pure a) (Pure.pure a) := hR.ofExcept (.ok a)

theorem fail {e : EncodeError} (h : e.fault = none) : R α (Outcome.fail e) (Outcome.fail e) :=
  hR.ofExcept (.error h)

theorem map {x x' : Outcome EncodeError α} (hx : R α x x') (f : α → β) :
    R β (x.map f) (x'.map f) := by
  rw [Outcome.map_eq_bind, Outcome.map_eq_bind]
  exact hR.bind hx fun a _ => hR.pure (f a)

theorem concat {f f' : α → Outcome EncodeError (List β)} {as : List α}
    (h : ∀ a ∈ as, R (List β) (f a) (f' a)) :
    R (List β) (Outcome.concat f as) (Outcome.concat f' as) := by
  induction as with
  | nil => exact hR.pure []
  | cons a as ih =>
    obtain ⟨ha, has⟩ := List.forall_mem_cons.mp h
    exact hR.bind ha fun part _ => hR.map (ih has) _

end WriterRelation

/-! ## 3. Writers -/

/-- Two ways to write the parts of a value, which are related. -/
structure Writing.Related (R : ∀ α : Type, Outcome EncodeError α → Outcome EncodeError α → Prop)
    (p : Pieces) (w w' : Writing) : Prop where
  indefinite : w.options.indefinite = w'.options.indefinite
  part : ∀ t, ∀ z ∈ p.content.parts, R Bytes (w.part t z) (w'.part t z)

section writers

variable {s : Shape} {w w' : Writing} {p : Pieces} (hR : WriterRelation R)
include hR

theorem writeElement_related {name : String} {e : Field × Option Value}
    (he : ∀ t z, e.2 = some z → R Bytes (w.part t z) (w'.part t z)) :
    R Bytes (writeElement w name e) (writeElement w' name e) := by
  obtain ⟨f, slot⟩ := e
  unfold writeElement
  dsimp only
  split
  · exact hR.pure _
  · exact he _ _ rfl
  · exact hR.pure _
  · exact hR.fail rfl

theorem writeKeyed_related {e : Field × Option Value}
    (he : ∀ t z, e.2 = some z → R Bytes (w.part t z) (w'.part t z)) :
    R Bytes (writeKeyed w e) (writeKeyed w' e) := by
  obtain ⟨f, slot⟩ := e
  unfold writeKeyed
  dsimp only
  split
  · exact hR.pure _
  · exact hR.bind (he _ _ rfl) fun _ _ => hR.pure _
  · exact hR.pure _

variable (hw : Writing.Related R p w w')
include hw

omit hR in
theorem Writing.Related.indefinite_eq (framing : Framing) (style : Option ItemStyle) :
    w.indefinite framing style = w'.indefinite framing style := by
  unfold Writing.indefinite
  rw [hw.indefinite]

theorem writeArray_related : R Bytes (s.writeArray w p) (s.writeArray w' p) := by
  rw [Shape.writeArray, Shape.writeArray, hw.indefinite_eq]
  dsimp only
  split
  · rename_i item vs _ hc
    refine hR.bind (hR.concat fun v hv => hw.part item v ?_) fun _ _ => hR.pure _
    rw [hc]
    exact hv
  · rename_i fields slots hl hc
    refine hR.bind (hR.ofExcept (alignSlots_faultFree s fields slots)) fun entries halign => ?_
    obtain ⟨hn, rfl⟩ := alignSlots_eq_ok.mp halign
    refine hR.bind (hR.concat fun e he => ?_) fun _ _ => hR.pure _
    refine writeElement_related hR fun t z hz => hw.part t z ?_
    rw [hc]
    exact mem_parts_of_aligned (hn.trans (Shape.arity_of_layout hl))
      (mem_of_mem_writtenFields he) hz
  · exact hR.fail rfl

theorem writeMap_related : R Bytes (s.writeMap w p) (s.writeMap w' p) := by
  rw [Shape.writeMap, Shape.writeMap, hw.indefinite_eq]
  split
  · rename_i key value es _ hc
    refine hR.bind (hR.concat fun e he => ?_) fun _ _ => hR.pure _
    have hparts : e.1 ∈ p.content.parts ∧ e.2 ∈ p.content.parts := by
      rw [hc]
      exact ⟨List.mem_flatMap.mpr ⟨e, he, by simp⟩, List.mem_flatMap.mpr ⟨e, he, by simp⟩⟩
    exact hR.bind (hw.part key e.1 hparts.1) fun _ _ =>
      hR.bind (hw.part value e.2 hparts.2) fun _ _ => hR.pure _
  · rename_i fields slots hl hc
    refine hR.bind (hR.ofExcept (alignSlots_faultFree s fields slots)) fun entries halign => ?_
    obtain ⟨hn, rfl⟩ := alignSlots_eq_ok.mp halign
    refine hR.bind (hR.ofExcept (checkSlots_faultFree _ _)) fun _ _ => ?_
    refine hR.bind (hR.concat fun e he => ?_) fun _ _ => hR.pure _
    refine writeKeyed_related hR fun t z hz => hw.part t z ?_
    rw [hc]
    exact mem_parts_of_aligned (hn.trans (Shape.arity_of_layout hl)) he hz
  · exact hR.fail rfl

theorem writeUnion_related : R Bytes (s.writeUnion w p) (s.writeUnion w' p) := by
  rw [Shape.writeUnion, Shape.writeUnion]
  split
  · rename_i v hc
    split
    · refine hw.part v.type v ?_
      rw [hc]
      exact List.mem_cons_self
    · exact hR.fail rfl
  · exact hR.fail rfl

/-- **Items are related whose parts are**, whatever their kind. -/
theorem writePieces_related : R Bytes (s.writePieces w p) (s.writePieces w' p) := by
  refine hR.bind ?_ fun item _ => hR.pure _
  rw [Shape.writeKind, Shape.writeKind]
  split
  · exact hR.ofExcept (writeScalar_faultFree s _ p)
  · exact writeArray_related hR hw
  · exact writeMap_related hR hw
  · refine hR.bind (hR.ofExcept (constructorIndex_faultFree s p)) fun index _ => ?_
    exact hR.bind (writeArray_related hR hw) fun _ _ => hR.pure _
  · exact writeUnion_related hR hw

end writers

end CborSchema
