import CborSchema.Decode.Value
import CborSchema.Proofs.Guarded.Maps
import CborSchema.Proofs.Guarded.Writing

/-!
# Guarded values

Unions, tags and whole values, read at a position of a buffer. A value counts the depth up when it
is entered and down when it is left, also when reading it fails and when it is only tried.

* `Guarded.trial` -- a candidate on a buffer of its own; only the depth is shared;
* `Guarded.value` -- a value of a type, one level below, of a shape that was resolved before;
* `Guarded.decode` -- a value from a buffer that holds nothing else, unless more is allowed;
* `Mirrors.readItem` -- **a shape that passed its checks is read without a fault**;
* `Catalog.value_follows` -- by induction on the nesting that is left, a value is read without a
  fault;
* `Catalog.guarded_decode_ends` -- a guarded decoding ends as the decoding does;
* `Catalog.converters_never_fault` -- **no decoding and no encoding takes a branch that it should
  not.**
-/

namespace CborSchema

namespace Guarded

variable {α : Type}

/-! ## 1. Whole buffers -/

/-- Whether every byte lies before the position. -/
def atEnd : GuardedDecoder Bool := fun m =>
  (.answer (decide (m.body.buffer.length ≤ m.body.position)), m)

/-- A run that must leave nothing behind it, unless more is allowed. -/
def whole (allowTrailing : Bool) (g : GuardedDecoder α) : GuardedDecoder α := do
  let a ← g
  let ended ← atEnd
  if allowTrailing || ended then pure a
  else
    let left ← remaining
    refuse (.trailingBytes left)

/-- A run on a buffer of its own, and how it ends. The depth that it leaves is kept. -/
def trial (span : Bytes) (g : GuardedDecoder α) : GuardedDecoder (Except DecodeError α) := fun m =>
  match g ⟨⟨span, 0⟩, m.depth⟩ with
  | (.answer a, m') => (.answer (.ok a), { m with depth := m'.depth })
  | (.refusal e, m') => (.answer (.error e), { m with depth := m'.depth })
  | (.fault f, m') => (.fault f, { m with depth := m'.depth })

/-! ## 2. Unions, tags and kinds -/

/-- The first candidate that decodes the bytes; `failed` are the failures before. -/
def firstCandidate (r : GuardedReading) (catalog : Catalog) (name : String) (span : Bytes) :
    List (String × DecodeError) → List TypeExpr → GuardedDecoder Value
  | failed, [] => refuse (.noMatchingCandidate name failed)
  | failed, t :: ts => do
    match ← trial span (whole false (r.part t)) with
    | .ok v => pure v
    | .error (.config e) => refuse (.config e)
    | .error e => firstCandidate r catalog name span (failed ++ [(catalog.printName t, e)]) ts

/-- A union of a shape. -/
def readUnion (s : Shape) (r : GuardedReading) (catalog : Catalog) : GuardedDecoder Parts := do
  let levels ← levelsLeft r
  let span ← item levels
  let v ← firstCandidate r catalog s.name span [] s.candidates
  pure { name := s.name, content := .variant v }

/-- The tag in front of an item; whether it was there. -/
def readTagBefore (s : Shape) : GuardedDecoder Bool :=
  match s.tag with
  | none => pure false
  | some rule => do
    let h ← lookAhead (head s.name)
    if h.major ≠ .tag then
      match rule with
      | .required expected => refuse (.missingTag s.name expected)
      | .optional _ => pure false
    else
      let found ← argument h
      if found ≠ rule.number then refuse (.unexpectedTag s.name rule.number found)
      else
        let _ ← head s.name
        pure true

/-- An item by the kind of the shape. -/
def readKind (s : Shape) (r : GuardedReading) (catalog : Catalog) : GuardedDecoder Parts :=
  match s.kind with
  | .scalar p => readScalar s r p
  | .list => readArray s r
  | .map => readMap s r
  | .constructor => readConstructor s r
  | .union => readUnion s r catalog

/-- The tag, then the item. -/
def readItem (s : Shape) (r : GuardedReading) (catalog : Catalog) : GuardedDecoder Parts := do
  let tagged ← readTagBefore s
  let parts ← readKind s r catalog
  pure { parts with style := { parts.style with tagged } }

/-- The parts of an item, with its bytes if the shape keeps them. -/
def readKept (s : Shape) (r : GuardedReading) (catalog : Catalog) : GuardedDecoder Parts :=
  if s.preserveRaw then do
    let (parts, span) ← spanned (readItem s r catalog)
    pure { parts with raw := some span }
  else readItem s r catalog

/-! ## 3. Values -/

/-- A value of a type. The turns are one more than the levels that may be entered. -/
def value (c : Catalog) (o : DecodeOptions) : Nat → TypeExpr → GuardedDecoder Value
  | 0, _ => fault .depth
  | turns + 1, t => do
    let s ← ofExcept ((c.resolve t).mapError .config)
    nested o.maxDepth (.wire (.tooDeep o.maxDepth)) do
      let parts ← readKept s ⟨o, value c o turns⟩ c
      ofExcept (c.construct t s parts)

/-- Decode a value of a type. -/
def decode (c : Catalog) (t : TypeExpr) (o : DecodeOptions) : GuardedDecoder Value :=
  whole o.allowTrailing (value c o (o.maxDepth + 1) t)

end Guarded

/-! ## 4. Runs over whole buffers -/

/-- A guarded run over a whole buffer ends with a result, within the buffer and at the depth at
    which it began. -/
def Concludes {α : Type} (buffer : Bytes) (depth : Nat) (x : Except DecodeError α)
    (y : Ending DecodeError α × Machine Place) : Prop :=
  ∃ position ≤ buffer.length, y = (.ofExcept x, ⟨⟨buffer, position⟩, depth⟩)

namespace Follows

variable {α : Type} {depth : Nat} {g : GuardedDecoder α} {d : Decoder α}

/-- **A whole buffer.** The bytes behind the value are counted at a position within the buffer. -/
theorem whole (hg : Follows depth Eq g d) (allowTrailing : Bool) (buffer : Bytes) :
    Concludes buffer depth
      (d buffer >>= fun p => if allowTrailing || p.2.isEmpty then Pure.pure p.1
        else Outcome.fail (.trailingBytes p.2.length)).result
      (Guarded.whole allowTrailing g ⟨⟨buffer, 0⟩, depth⟩) := by
  have hrun := hg buffer 0 (Nat.zero_le _)
  rw [Outcome.result_bind]
  rw [List.drop_zero] at hrun
  generalize (d buffer).result = x at hrun ⊢
  generalize hm : g ⟨⟨buffer, 0⟩, depth⟩ = y at hrun
  cases hrun with
  | @answer a b position hR _ hto =>
    subst hR
    have hend : Guarded.atEnd ⟨⟨buffer, position⟩, depth⟩ =
        (.answer (buffer.drop position).isEmpty, ⟨⟨buffer, position⟩, depth⟩) := by
      have hiff : decide (buffer.length ≤ position) = (buffer.drop position).isEmpty := by
        rw [Bool.eq_iff_iff, decide_eq_true_iff, List.isEmpty_iff, List.drop_eq_nil_iff]
      rw [Guarded.atEnd, hiff]
    refine ⟨position, hto, ?_⟩
    rw [Guarded.whole, Guarded.bind_of_answer hm, Guarded.bind_of_answer hend]
    show _ = (Ending.ofExcept (if allowTrailing || (buffer.drop position).isEmpty then
      (Pure.pure a : Outcome DecodeError α) else _).result, _)
    split
    · rfl
    · rw [Guarded.bind_of_answer (Guarded.remaining_of_le hto), List.length_drop]
      rfl
  | @refusal e position _ hto =>
    refine ⟨position, hto, ?_⟩
    rw [Guarded.whole, Guarded.bind_of_refusal hm]
    rfl

/-- A candidate on a buffer of its own leaves the position, and the depth, where they are. -/
theorem trial_eq {buffer span : Bytes} {position : Nat} {x : Except DecodeError α}
    (h : Concludes span depth x (g ⟨⟨span, 0⟩, depth⟩)) :
    Guarded.trial span g ⟨⟨buffer, position⟩, depth⟩ =
      (.answer x, ⟨⟨buffer, position⟩, depth⟩) := by
  obtain ⟨position', _, hm⟩ := h
  rw [Guarded.trial, hm]
  cases x with
  | ok a => rfl
  | error e => rfl

theorem nested_refuse {max : Nat} (hmax : max ≤ depth) (e : DecodeError) :
    Follows depth Eq (Guarded.nested max e g) (Decoder.fail e) := by
  intro buffer position hle
  rw [Guarded.nested, if_pos hmax]
  exact .refusal (Nat.le_refl _) hle

/-- **The tag in front of an item has an argument.** -/
theorem readTagBefore (s : Shape) : Follows depth Eq (Guarded.readTagBefore s) s.readTagBefore := by
  unfold Guarded.readTagBefore Shape.readTagBefore
  cases s.tag with
  | none => exact pure rfl
  | some rule =>
    refine (peekHead s.name).bind fun h _ heq => ?_
    obtain ⟨rfl, hs⟩ := heq
    by_cases hm : h.major = .tag
    · rw [if_neg (not_not.mpr hm), if_neg (not_not.mpr hm)]
      refine argument_bind (hs.arg_ne_none (by rw [hm]; rfl)) ?_
      dsimp only
      split
      · exact refuse _
      · exact (head s.name).bind fun _ _ _ => pure rfl
    · rw [if_pos hm, if_pos hm]
      cases rule with
      | required expected => exact refuse _
      | optional _ => exact pure rfl

end Follows

/-! ## 5. Items -/

namespace Mirrors

variable {depth : Nat} {g : GuardedReading} {r : Reading}

/-- **Every candidate is tried at the depth of the union.** -/
theorem firstCandidate (hr : Mirrors depth g r) (catalog : Catalog) (name : String) (span : Bytes)
    (failed : List (String × DecodeError)) (ts : List TypeExpr) :
    Follows depth Eq (Guarded.firstCandidate g catalog name span failed ts) fun rest =>
      CborSchema.firstCandidate r catalog name span failed ts >>= fun v => pure (v, rest) := by
  induction ts generalizing failed with
  | nil => exact Follows.refuse _
  | cons t ts ih =>
    intro buffer position hle
    have htrial : Concludes span depth ((r.part t).whole span).result
        (Guarded.whole false (g.part t) ⟨⟨span, 0⟩, depth⟩) := (hr.part t).whole false span
    rw [Guarded.firstCandidate, Guarded.bind_of_answer (Follows.trial_eq htrial),
      Outcome.result_bind]
    cases hx : ((r.part t).whole span).result with
    | ok v =>
      rw [firstCandidate_ok hx]
      exact .answer rfl (Nat.le_refl _) hle
    | error e =>
      have hothers := ih (failed ++ [(catalog.printName t, e)]) buffer position hle
      rw [Outcome.result_bind] at hothers
      cases e with
      | config f =>
        rw [firstCandidate_config hx]
        exact .refusal (Nat.le_refl _) hle
      | _ =>
        rw [firstCandidate_error hx (fun f hf => by cases hf)]
        exact hothers

theorem readUnion (hr : Mirrors depth g r) (s : Shape) (catalog : Catalog) :
    Follows depth Eq (Guarded.readUnion s g catalog) (s.readUnion r catalog) := by
  refine hr.levelsLeft_bind ?_
  refine (Tracks.item r.depth).follows.andThen fun span => ?_
  refine (hr.firstCandidate catalog s.name span [] s.candidates).andThen fun v => ?_
  exact Follows.pure rfl

variable {s : Shape} {t : TypeExpr}

/-- **An item of a shape that passed its checks.** -/
theorem readItem (hr : Mirrors depth g r) (hs : s.check t = .ok ()) (catalog : Catalog) :
    Follows depth Eq (Guarded.readItem s g catalog) (s.readItem r catalog) := by
  have hkind : Follows depth Eq (Guarded.readKind s g catalog) (s.readKind r catalog) := by
    unfold Guarded.readKind Shape.readKind
    cases hk : s.kind with
    | scalar p => exact hr.readScalar s p
    | list => exact hr.readArray (check_list hs hk)
    | map => exact hr.readMap (check_map hs hk)
    | constructor => exact hr.readConstructor (check_constructor hs hk).2
    | union => exact hr.readUnion s catalog
  refine (Follows.readTagBefore s).andThen fun tagged => ?_
  refine hkind.andThen fun parts => ?_
  exact Follows.pure rfl

theorem readKept (hr : Mirrors depth g r) (hs : s.check t = .ok ()) (catalog : Catalog) :
    Follows depth Eq (Guarded.readKept s g catalog) (s.readKept r catalog) := by
  unfold Guarded.readKept Shape.readKept
  split
  · refine (hr.readItem hs catalog).spanned.andThen fun p => ?_
    exact Follows.pure rfl
  · exact hr.readItem hs catalog

end Mirrors

/-! ## 6. Values -/

namespace Catalog

/-- A type is resolved before a value of it is entered, and its shape passed its checks. -/
theorem shape_follows (c : Catalog) {depth : Nat} (t : TypeExpr) :
    Follows depth (fun s s' => s = s' ∧ s.check t = .ok ())
      (Guarded.ofExcept ((c.resolve t).mapError .config)) (c.codec.shape t) := by
  intro buffer position hle
  show EndsAs buffer position depth _ (c.codec.reach DecodeError.config t >>= _).result _
  rw [Outcome.result_bind]
  show EndsAs buffer position depth _ ((c.resolve t).mapError DecodeError.config >>= _) _
  rw [Guarded.ofExcept]
  cases hres : c.resolve t with
  | ok s => exact .answer ⟨rfl, (resolve_check hres).1⟩ (Nat.le_refl _) hle
  | error e => exact .refusal (Nat.le_refl _) hle

/-- **A value is read without a fault**, by induction on the nesting that is left. -/
theorem value_follows (c : Catalog) (o : DecodeOptions) {depth : Nat} (levels : Nat)
    (h : depth + levels = o.maxDepth) (t : TypeExpr) :
    Follows depth Eq (Guarded.value c o (levels + 1) t) (c.codec.read o levels t) := by
  induction levels generalizing depth t with
  | zero =>
    exact (c.shape_follows t).bind fun s _ _ => Follows.nested_refuse (Nat.le_of_eq h.symm) _
  | succ levels ih =>
    refine (c.shape_follows t).bind fun s _ heq => ?_
    obtain ⟨rfl, hs⟩ := heq
    -- the parts lie one level below, where one level less is left
    have hr : Mirrors (depth + 1) ⟨o, Guarded.value c o (levels + 1)⟩
        ⟨o, levels, c.codec.read o levels⟩ :=
      ⟨rfl, by dsimp only; omega, fun t => ih (by omega) t⟩
    refine Follows.nested ?_ (by omega) _
    refine (hr.readKept hs c).andThen fun parts => ?_
    exact Follows.ofExcept _

/-- **A guarded decoding ends as the decoding does**, within the buffer and at no depth. -/
theorem guarded_decode_ends (c : Catalog) (t : TypeExpr) (bytes : Bytes) (o : DecodeOptions) :
    Concludes bytes 0 (c.codec.decode t bytes o).result
      (Guarded.decode c t o ⟨⟨bytes, 0⟩, 0⟩) :=
  (c.value_follows o o.maxDepth (Nat.zero_add _) t).whole o.allowTrailing bytes

/-! ## 7. Both directions -/

/-- **The converters stay off their defensive branches**, whatever the types declare, the bytes and
    the values are and the options allow. A guarded run, which a fault would end for good, ends as
    the run without guards does: with its answer or its refusal. In the end the position lies within
    the buffer, and every level that was entered was left. -/
theorem converters_never_fault (c : Catalog) :
    (∀ (t : TypeExpr) (bytes : Bytes) (o : DecodeOptions), ∃ position ≤ bytes.length,
      Guarded.decode c t o ⟨⟨bytes, 0⟩, 0⟩ =
        (.ofExcept (c.codec.decode t bytes o).result, ⟨⟨bytes, position⟩, 0⟩)) ∧
    ∀ (v : Value) (o : EncodeOptions),
      Guarded.encode c v o ⟨(), 0⟩ = (.ofExcept (c.codec.encode v o).result, ⟨(), 0⟩) :=
  ⟨c.guarded_decode_ends, c.guarded_encode_ends⟩

end Catalog

end CborSchema
