import CborSchema.Encode.Value
import CborSchema.Proofs.Guarded.Machine
import CborSchema.Proofs.Encode.Related
import CborSchema.Proofs.Roundtrip.Constructors

/-!
# Guarded encoding

The writers of all kinds with the branches that they keep for states they should never be in. A
value counts the depth up when it is entered and down when it is left, also when writing it fails.

* `GuardedEncoder`, `GuardedWriting` -- a guarded run that writes, and what the guarded writers
  share;
* `Guarded.writePayload` -- a string, which faults if it is to be cut into chunks of no bytes;
* `Guarded.writeArray`, `Guarded.writeMap` -- collections, which fault if the shape has no layout;
* `Guarded.writeConstructor` -- a constructor, which faults if the shape has no alternative;
* `Writes` -- a guarded run ends as an outcome does, at the depth at which it began;
* `Catalog.write_writes` -- by induction on the nesting that is left, a value is written without a
  fault;
* `Catalog.guarded_encode_ends` -- a guarded encoding ends as the encoding does.
-/

namespace CborSchema

/-- A guarded run that writes. -/
abbrev GuardedEncoder (α : Type) := Guarded (Machine Unit) EncodeError α

/-- What the guarded writers of the kinds share. -/
structure GuardedWriting where
  options : EncodeOptions
  /-- How a part is written. -/
  part : TypeExpr → Value → GuardedEncoder Bytes

/-- Whether an array or map is written indefinite. -/
def GuardedWriting.indefinite (w : GuardedWriting) (framing : Framing) (style : Option ItemStyle) :
    Bool :=
  match framing with
  | .definite => false
  | .indefinite => true
  | .either =>
    match style with
    | some style => style.indefinite
    | none => w.options.indefinite

namespace Guarded

variable {α β : Type}

/-- The parts written for each member of a list, one after the other. -/
def concat (f : α → GuardedEncoder (List β)) : List α → GuardedEncoder (List β)
  | [] => pure []
  | a :: as => do
    let part ← f a
    let others ← concat f as
    pure (part ++ others)

/-! ## 1. Scalars -/

/-- A string, in chunks if the shape or the value says so. -/
def writeFramed (s : Shape) (style : Option ItemStyle) (major : Major) (payload : Bytes)
    (pieces : Nat → List Bytes) : GuardedEncoder Bytes :=
  if s.chunked style payload.length then
    let size := s.chunkSize.getD Limits.chunk
    if size = 0 then fault .chunkSize else pure (chunkedBytes major (pieces size))
  else pure (stringBytes major payload)

/-- A string of the size that the shape fixes, if it fixes one. -/
def writePayload (s : Shape) (style : Option ItemStyle) (major : Major) (payload : Bytes)
    (pieces : Nat → List Bytes) : GuardedEncoder Bytes :=
  match s.size with
  | some size =>
    if payload.length ≠ size then refuse (.sizeMismatch s.name size payload.length)
    else writeFramed s style major payload pieces
  | none => writeFramed s style major payload pieces

/-- A scalar of a kind. Only strings are cut. -/
def writeScalarOf (s : Shape) (style : Option ItemStyle) : Primitive → Scalar → GuardedEncoder Bytes
  | .bytes, .bytes payload =>
    writePayload s style .bytes payload fun size => byteChunks size payload
  | .embedded, .bytes payload =>
    writePayload s style .bytes payload fun size => byteChunks size payload
  | .text, .text text =>
    writePayload s style .text (textPayload text) fun size => textChunks size text
  | p, scalar => ofExcept (s.writeScalarOf style p scalar)

/-- A scalar of a shape. -/
def writeScalar (s : Shape) (p : Primitive) (pieces : Pieces) : GuardedEncoder Bytes :=
  match pieces.content with
  | .scalar scalar => writeScalarOf s pieces.style p scalar
  | found => refuse (.shapeMismatch s.name "scalar" found.kind)

/-! ## 2. Collections -/

/-- One element of a tuple. -/
def writeElement (w : GuardedWriting) (name : String) (entry : Field × Option Value) :
    GuardedEncoder Bytes :=
  match entry.1.body, entry.2 with
  | .literal literal, _ => pure literal.bytes
  | .value type _, some v => w.part type v
  | .value _ .nullable, none => pure nullBytes
  | .value _ _, none => refuse (.missingField name entry.1.key)

/-- An array of a shape. -/
def writeArray (s : Shape) (w : GuardedWriting) (pieces : Pieces) : GuardedEncoder Bytes :=
  let indefinite := w.indefinite s.length pieces.style
  match s.layout, pieces.content with
  | some (.items item), .items items => do
    let parts ← concat (w.part item) items
    pure (collectionBytes .array indefinite items.length parts)
  | some (.fields fields), .fields slots => do
    let entries ← ofExcept (s.alignSlots fields slots)
    let written := writtenFields entries
    let parts ← concat (writeElement w s.name) written
    pure (collectionBytes .array indefinite written.length parts)
  | none, _ => fault .layout
  | some _, found => refuse (s.layoutError found)

/-- One entry of a dynamic map. -/
def writeEntry (w : GuardedWriting) (key value : TypeExpr) (entry : Value × Value) :
    GuardedEncoder Bytes := do
  let k ← w.part key entry.1
  let v ← w.part value entry.2
  pure (k ++ v)

/-- One field of a map: its key and what stands under it. -/
def writeKeyed (w : GuardedWriting) (entry : Field × Option Value) : GuardedEncoder Bytes :=
  match entry.1.body, entry.2 with
  | .literal literal, _ => pure (entry.1.key.bytes ++ literal.bytes)
  | .value type _, some v => do
    let part ← w.part type v
    pure (entry.1.key.bytes ++ part)
  | .value _ _, none => pure []

/-- A map of a shape. -/
def writeMap (s : Shape) (w : GuardedWriting) (pieces : Pieces) : GuardedEncoder Bytes :=
  let indefinite := w.indefinite s.length pieces.style
  match s.layout, pieces.content with
  | some (.entries key value), .entries entries => do
    let parts ← concat (writeEntry w key value) entries
    pure (collectionBytes .map indefinite entries.length parts)
  | some (.fields fields), .fields slots => do
    let entries ← ofExcept (s.alignSlots fields slots)
    ofExcept (checkSlots s.name entries)
    let parts ← concat (writeKeyed w) entries
    pure (collectionBytes .map indefinite (entries.countP isWritten) parts)
  | none, _ => fault .layout
  | some _, found => refuse (s.layoutError found)

/-! ## 3. Constructors, unions and values -/

/-- The index of a constructor value, and whether its general form is asked for. -/
def constructorIndex (s : Shape) (pieces : Pieces) : GuardedEncoder (UInt64 × Bool) :=
  match s.alternative with
  | some (.general index) => pure (index, true)
  | some (.index index) => pure (index, false)
  | some .any =>
    match pieces.alternative with
    | some index => pure (index, false)
    | none => refuse (.missingAlternative s.name)
  | none => fault .alternative

/-- A constructor of a shape. -/
def writeConstructor (s : Shape) (w : GuardedWriting) (pieces : Pieces) : GuardedEncoder Bytes := do
  let (index, general) ← constructorIndex s pieces
  let fields ← writeArray s w pieces
  pure (constructorFront index general ++ fields)

/-- A union of a shape. -/
def writeUnion (s : Shape) (w : GuardedWriting) (pieces : Pieces) : GuardedEncoder Bytes :=
  match pieces.content with
  | .variant v =>
    if s.candidates.contains v.type then w.part v.type v else refuse (.notACandidate s.name)
  | found => refuse (.shapeMismatch s.name "variant" found.kind)

/-- An item by the kind of the shape. -/
def writeKind (s : Shape) (w : GuardedWriting) (pieces : Pieces) : GuardedEncoder Bytes :=
  match s.kind with
  | .scalar p => writeScalar s p pieces
  | .list => writeArray s w pieces
  | .map => writeMap s w pieces
  | .constructor => writeConstructor s w pieces
  | .union => writeUnion s w pieces

/-- The tag, then the item. -/
def writePieces (s : Shape) (w : GuardedWriting) (pieces : Pieces) : GuardedEncoder Bytes := do
  let item ← writeKind s w pieces
  pure (s.tagBefore pieces.style ++ item)

/-- A value of a type. The turns are one more than the levels that may be entered. -/
def write (c : Catalog) (o : EncodeOptions) : Nat → TypeExpr → Value → GuardedEncoder Bytes
  | 0, _, _ => fault .depth
  | turns + 1, t, v => do
    let s ← ofExcept ((c.resolve t).mapError .config)
    nested o.maxDepth (.tooDeep o.maxDepth) (match s.preserveRaw, v.kept t with
      | true, some raw => pure raw
      | _, _ => do
        let pieces ← ofExcept (c.pieces t v)
        writePieces s ⟨o, write c o turns⟩ pieces)

/-- Encode a value of its own type. -/
def encode (c : Catalog) (v : Value) (o : EncodeOptions) : GuardedEncoder Bytes :=
  write c o (o.maxDepth + 1) v.type v

end Guarded

/-! ## 4. Ending as an outcome -/

/-- A guarded run at a depth ends as an outcome does, and stands at this depth again. -/
def Writes {α : Type} (depth : Nat) (g : GuardedEncoder α) (x : Outcome EncodeError α) : Prop :=
  g ⟨(), depth⟩ = (.ofExcept x.result, ⟨(), depth⟩)

namespace Writes

variable {α β : Type} {depth : Nat}

theorem pure (a : α) : Writes depth (Pure.pure a) (Pure.pure a) := rfl

theorem refuse (e : EncodeError) :
    Writes depth (Guarded.refuse e : GuardedEncoder α) (Outcome.fail e) := rfl

theorem ofExcept (r : Except EncodeError α) :
    Writes depth (Guarded.ofExcept r) (Outcome.ofExcept r) := rfl

/-- **Two guarded runs end as two steps**; of the second this is asked only where the first
    answers. -/
theorem bind {g : GuardedEncoder α} {x : Outcome EncodeError α} {f : α → GuardedEncoder β}
    {k : α → Outcome EncodeError β} (hg : Writes depth g x)
    (hf : ∀ a, x.result = .ok a → Writes depth (f a) (k a)) : Writes depth (g >>= f) (x >>= k) := by
  have hrun : g ⟨(), depth⟩ = (.ofExcept x.result, ⟨(), depth⟩) := hg
  show (g >>= f) ⟨(), depth⟩ = (.ofExcept (x >>= k).result, ⟨(), depth⟩)
  rw [Outcome.result_bind]
  cases hx : x.result with
  | ok a =>
    rw [hx] at hrun
    rw [Guarded.bind_of_answer hrun]
    exact hf a hx
  | error e =>
    rw [hx] at hrun
    rw [Guarded.bind_of_refusal hrun]
    rfl

/-- **One level below and back again.** -/
theorem nested {g : GuardedEncoder α} {x : Outcome EncodeError α} (hg : Writes (depth + 1) g x)
    {max : Nat} (hmax : depth < max) (e : EncodeError) :
    Writes depth (Guarded.nested max e g) x := by
  have hrun : g ⟨(), depth + 1⟩ = (.ofExcept x.result, ⟨(), depth + 1⟩) := hg
  show Guarded.nested max e g ⟨(), depth⟩ = _
  rw [Guarded.nested, if_neg (Nat.not_le.mpr hmax), hrun]
  rfl

theorem nested_refuse {g : GuardedEncoder α} {max : Nat} (hmax : max ≤ depth) (e : EncodeError) :
    Writes depth (Guarded.nested max e g) (Outcome.fail e) := by
  show Guarded.nested max e g ⟨(), depth⟩ = _
  rw [Guarded.nested, if_pos hmax]
  rfl

theorem concat {f : α → GuardedEncoder (List β)} {k : α → Outcome EncodeError (List β)}
    (h : ∀ a, Writes depth (f a) (k a)) (as : List α) :
    Writes depth (Guarded.concat f as) (Outcome.concat k as) := by
  induction as with
  | nil => exact pure []
  | cons a as ih =>
    refine (h a).bind fun part _ => ?_
    rw [Outcome.map_eq_bind]
    exact ih.bind fun others _ => pure _

/-! ## 5. Scalars -/

variable {s : Shape}

/-- **A string is cut into chunks of at least one byte.** -/
theorem writePayload (hs : s.chunkSize ≠ some 0) (style : Option ItemStyle) (major : Major)
    (payload : Bytes) (pieces : Nat → List Bytes) :
    Writes depth (Guarded.writePayload s style major payload pieces)
      (Outcome.ofExcept (s.writePayload style major payload pieces)) := by
  have hsize : s.chunkSize.getD Limits.chunk ≠ 0 := by
    cases hc : s.chunkSize with
    | none => decide
    | some size =>
      intro h
      exact hs (hc.trans (congrArg some h))
  have hframed : Writes depth (Guarded.writeFramed s style major payload pieces)
      (Outcome.ofExcept (if s.chunked style payload.length then
        Pure.pure (chunkedBytes major (pieces (s.chunkSize.getD Limits.chunk)))
      else Pure.pure (stringBytes major payload))) := by
    unfold Guarded.writeFramed
    split
    · rw [if_neg hsize]
      exact pure _
    · exact pure _
  unfold Guarded.writePayload Shape.writePayload
  cases s.size with
  | none => exact hframed
  | some size =>
    dsimp only
    split
    · exact refuse _
    · exact hframed

theorem writeScalar (hs : s.chunkSize ≠ some 0) (p : Primitive) (pieces : Pieces) :
    Writes depth (Guarded.writeScalar s p pieces) (Outcome.ofExcept (s.writeScalar p pieces)) := by
  unfold Guarded.writeScalar Shape.writeScalar
  cases pieces.content with
  | scalar scalar =>
    dsimp only
    unfold Guarded.writeScalarOf
    split
    · exact writePayload hs _ _ _ _
    · exact writePayload hs _ _ _ _
    · exact writePayload hs _ _ _ _
    · exact ofExcept _
  | _ => exact refuse _

-- a string that was not checked may be cut into chunks of no bytes
example : ((Shape.ofSchema "bytes" ((Schema.scalar .bytes).withChunkSize 0)).map fun s =>
    (Guarded.writeScalar s .bytes ⟨.scalar (.bytes [1]), none, none⟩ ⟨(), 0⟩).1) =
      .ok (.fault .chunkSize) := by rfl

end Writes

/-! ## 6. Collections -/

/-- A guarded writing at a depth and a writing: the parts are written alike. -/
structure MirrorsWriting (depth : Nat) (g : GuardedWriting) (w : Writing) : Prop where
  options : g.options = w.options
  part : ∀ t v, Writes depth (g.part t v) (w.part t v)

namespace MirrorsWriting

variable {depth : Nat} {g : GuardedWriting} {w : Writing} {s : Shape} {t : TypeExpr}

theorem indefinite (hw : MirrorsWriting depth g w) (framing : Framing) (style : Option ItemStyle) :
    g.indefinite framing style = w.indefinite framing style := by
  cases framing with
  | definite => rfl
  | indefinite => rfl
  | either =>
    cases style with
    | some style => rfl
    | none => exact congrArg EncodeOptions.indefinite hw.options

theorem writeElement (hw : MirrorsWriting depth g w) (name : String)
    (entry : Field × Option Value) :
    Writes depth (Guarded.writeElement g name entry) (CborSchema.writeElement w name entry) := by
  unfold Guarded.writeElement CborSchema.writeElement
  cases entry.1.body with
  | literal literal => exact Writes.pure _
  | value type presence =>
    cases entry.2 with
    | some v => exact hw.part type v
    | none =>
      cases presence with
      | nullable => exact Writes.pure _
      | required => exact Writes.refuse _
      | optional => exact Writes.refuse _

theorem writeKeyed (hw : MirrorsWriting depth g w) (entry : Field × Option Value) :
    Writes depth (Guarded.writeKeyed g entry) (CborSchema.writeKeyed w entry) := by
  unfold Guarded.writeKeyed CborSchema.writeKeyed
  cases entry.1.body with
  | literal literal => exact Writes.pure _
  | value type presence =>
    cases entry.2 with
    | some v => exact (hw.part type v).bind fun part _ => Writes.pure _
    | none => exact Writes.pure _

/-- **An array of a shape with a layout.** -/
theorem writeArray (hw : MirrorsWriting depth g w) (hs : s.layout ≠ none) (pieces : Pieces) :
    Writes depth (Guarded.writeArray s g pieces) (s.writeArray w pieces) := by
  unfold Guarded.writeArray Shape.writeArray
  rw [hw.indefinite]
  cases hl : s.layout with
  | none => exact absurd hl hs
  | some layout =>
    cases layout with
    | items item =>
      cases pieces.content with
      | items items =>
        exact (Writes.concat (hw.part item) items).bind fun parts _ => Writes.pure _
      | _ => exact Writes.refuse _
    | fields fields =>
      cases pieces.content with
      | fields slots =>
        refine (Writes.ofExcept _).bind fun entries _ => ?_
        exact (Writes.concat (hw.writeElement s.name) _).bind fun parts _ => Writes.pure _
      | _ => exact Writes.refuse _
    | entries key value => exact Writes.refuse _

/-- **A map of a shape with a layout.** -/
theorem writeMap (hw : MirrorsWriting depth g w) (hs : s.layout ≠ none) (pieces : Pieces) :
    Writes depth (Guarded.writeMap s g pieces) (s.writeMap w pieces) := by
  unfold Guarded.writeMap Shape.writeMap
  rw [hw.indefinite]
  cases hl : s.layout with
  | none => exact absurd hl hs
  | some layout =>
    cases layout with
    | items item => exact Writes.refuse _
    | fields fields =>
      cases pieces.content with
      | fields slots =>
        refine (Writes.ofExcept _).bind fun entries _ => ?_
        refine (Writes.ofExcept _).bind fun _ _ => ?_
        exact (Writes.concat hw.writeKeyed _).bind fun parts _ => Writes.pure _
      | _ => exact Writes.refuse _
    | entries key value =>
      cases pieces.content with
      | entries entries =>
        refine (Writes.concat (fun entry => ?_) entries).bind fun parts _ => Writes.pure _
        refine (hw.part key entry.1).bind fun k _ => ?_
        exact (hw.part value entry.2).bind fun v _ => Writes.pure _
      | _ => exact Writes.refuse _

/-! ## 7. Constructors, unions and items -/

/-- **A constructor of a shape with an alternative.** -/
theorem writeConstructor (hw : MirrorsWriting depth g w) (hs : s.layout ≠ none)
    (ha : s.alternative ≠ none) (pieces : Pieces) :
    Writes depth (Guarded.writeConstructor s g pieces) (s.writeConstructor w pieces) := by
  have hindex : Writes depth (Guarded.constructorIndex s pieces)
      (Outcome.ofExcept (s.constructorIndex pieces)) := by
    unfold Guarded.constructorIndex Shape.constructorIndex
    cases hs : s.alternative with
    | none => exact absurd hs ha
    | some a =>
      cases a with
      | index i => exact Writes.pure _
      | general i => exact Writes.pure _
      | any =>
        cases pieces.alternative with
        | some i => exact Writes.pure _
        | none => exact Writes.refuse _
  refine hindex.bind fun index _ => ?_
  exact (hw.writeArray hs pieces).bind fun fields _ => Writes.pure _

theorem writeUnion (hw : MirrorsWriting depth g w) (s : Shape) (pieces : Pieces) :
    Writes depth (Guarded.writeUnion s g pieces) (s.writeUnion w pieces) := by
  unfold Guarded.writeUnion Shape.writeUnion
  cases pieces.content with
  | variant v =>
    dsimp only
    split
    · exact hw.part v.type v
    · exact Writes.refuse _
  | _ => exact Writes.refuse _

/-- An array layout is a layout. -/
theorem layout_of_hasArray (hs : s.HasArray) : s.layout ≠ none := by
  rcases hs with ⟨item, hl⟩ | ⟨fields, hl, _⟩
  · simp [hl]
  · simp [hl]

theorem layout_of_hasMap (hs : s.HasMap) : s.layout ≠ none := by
  rcases hs with ⟨key, value, hl⟩ | ⟨fields, hl, _⟩
  · simp [hl]
  · simp [hl]

/-- **An item of a shape that a type resolves to.** -/
theorem writePieces (hw : MirrorsWriting depth g w) {c : Catalog} (hs : c.resolve t = .ok s)
    (pieces : Pieces) :
    Writes depth (Guarded.writePieces s g pieces) (s.writePieces w pieces) := by
  have hcheck := (resolve_check hs).1
  have hkind : Writes depth (Guarded.writeKind s g pieces) (s.writeKind w pieces) := by
    unfold Guarded.writeKind Shape.writeKind
    cases hk : s.kind with
    | scalar p => exact Writes.writeScalar (check_settled hcheck).chunkSize p pieces
    | list => exact hw.writeArray (layout_of_hasArray (check_list hcheck hk)) pieces
    | map => exact hw.writeMap (layout_of_hasMap (check_map hcheck hk)) pieces
    | constructor =>
      exact hw.writeConstructor (layout_of_hasArray (check_constructor hcheck hk).2)
        (resolve_alternative hs hk) pieces
    | union => exact hw.writeUnion s pieces
  exact hkind.bind fun item _ => Writes.pure _

end MirrorsWriting

/-! ## 8. Values -/

namespace Catalog

/-- **A value is written without a fault**, by induction on the nesting that is left. -/
theorem write_writes (c : Catalog) (o : EncodeOptions) {depth : Nat} (levels : Nat)
    (h : depth + levels = o.maxDepth) (t : TypeExpr) (v : Value) :
    Writes depth (Guarded.write c o (levels + 1) t v) (c.codec.write o levels t v) := by
  have hshape : ∀ {depth : Nat} {t : TypeExpr}, Writes depth
      (Guarded.ofExcept ((c.resolve t).mapError .config))
      (c.codec.reach EncodeError.config t) := rfl
  have hresolve : ∀ {t : TypeExpr} {s : Shape},
      (c.codec.reach EncodeError.config t).result = .ok s → c.resolve t = .ok s := by
    intro t s hs
    have hs : (c.resolve t).mapError EncodeError.config = .ok s := hs
    cases hr : c.resolve t with
    | ok s' =>
      rw [hr] at hs
      cases hs
      rfl
    | error e =>
      rw [hr] at hs
      cases hs
  induction levels generalizing depth t v with
  | zero =>
    exact hshape.bind fun s _ => Writes.nested_refuse (Nat.le_of_eq h.symm) _
  | succ levels ih =>
    refine hshape.bind fun s hs => Writes.nested ?_ (by omega) _
    -- the parts lie one level below, where one level less is left
    have hw : MirrorsWriting (depth + 1) ⟨o, Guarded.write c o (levels + 1)⟩
        ⟨o, c.codec.write o levels⟩ := ⟨rfl, fun t v => ih (by omega) t v⟩
    have hpieces : Writes (depth + 1)
        (Guarded.ofExcept (c.pieces t v) >>= fun pieces =>
          Guarded.writePieces s ⟨o, Guarded.write c o (levels + 1)⟩ pieces)
        (Outcome.ofExcept (c.pieces t v) >>= fun pieces =>
          s.writePieces ⟨o, c.codec.write o levels⟩ pieces) :=
      (Writes.ofExcept _).bind fun pieces _ => hw.writePieces (hresolve hs) pieces
    cases s.preserveRaw with
    | false => exact hpieces
    | true =>
      cases v.kept t with
      | some raw => exact Writes.pure _
      | none => exact hpieces

/-- **A guarded encoding ends as the encoding does**, at no depth. -/
theorem guarded_encode_ends (c : Catalog) (v : Value) (o : EncodeOptions) :
    Guarded.encode c v o ⟨(), 0⟩ = (.ofExcept (c.codec.encode v o).result, ⟨(), 0⟩) :=
  c.write_writes o o.maxDepth (Nat.zero_add _) v.type v

end Catalog

end CborSchema
