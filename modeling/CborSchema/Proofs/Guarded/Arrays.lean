import CborSchema.Decode.Constructor
import CborSchema.Proofs.Guarded.Scalars
import CborSchema.Proofs.Shape.Checked

/-!
# Guarded arrays

Arrays and constructors, read at a position of a buffer.

* `Guarded.next` -- whether another element follows; an element that follows is counted off;
* `Guarded.fold` -- one step for each element, as long as one follows;
* `Guarded.readArray` -- an array, which faults if the layout is not one of an array;
* `Follows.fold` -- **the counter of a loop never falls below zero**: the loop asks before it
  counts;
* `Mirrors.readArray`, `Mirrors.readConstructor` -- an array of a shape that passed its checks has a
  layout.
-/

namespace CborSchema

namespace Guarded

variable {σ : Type}

/-! ## 1. Elements -/

/-- Whether another element follows, and what is to come after it. -/
def next : Pending → GuardedDecoder (Bool × Pending)
  | .counted n =>
    if n = 0 then pure (false, .counted 0)
    else do
      let left ← minus n 1 .elements
      pure (true, .counted left)
  | .toBreak => do
    if ← atBreak then
      closing "indefinite item"
      pure (false, .counted 0)
    else pure (true, .toBreak)

/-- One step as long as another element follows, at most the given number of turns. -/
def whileNext (step : σ → GuardedDecoder σ) : Nat → Pending → σ → GuardedDecoder σ
  | 0, _, _ => refuse (.wire (.endOfInput "indefinite item"))
  | turns + 1, e, s => do
    let (more, e) ← next e
    if more then
      let s ← step s
      whileNext step turns e s
    else pure s

/-- One step for each element that is still to come. The last turn finds that none is. -/
def fold (step : σ → GuardedDecoder σ) (e : Pending) (s : σ) : GuardedDecoder σ := do
  let left ← remaining
  match e with
  | .counted n => whileNext step (n + 1) e s
  | .toBreak => whileNext step (left + 1) e s

/-- The room that is made in advance: every element takes at least one byte. -/
def capacity (e : Pending) : GuardedDecoder Nat := do
  let left ← remaining
  match e with
  | .counted n => pure (min n left)
  | .toBreak => pure 0

/-- The head of an array or map, and what is to come of it. -/
def openCollection (s : Shape) (r : GuardedReading) (major : Major) : GuardedDecoder Pending := do
  let h ← head s.name
  if h.major ≠ major then refuse (.unexpectedMajor s.name major.name h.major)
  else
    ofExcept (s.requireFraming h.isIndefinite)
    if h.isIndefinite then pure .toBreak
    else
      let n ← boundedLength h r.options.maxCollectionLength s.name
      pure (.counted n)

/-- The nesting that is left below the value that is read. -/
def levelsLeft (r : GuardedReading) : GuardedDecoder Nat := fun m =>
  (.answer (r.options.maxDepth - m.depth), m)

/-! ## 2. Items and fields -/

/-- Items of one type, as many as are to come. -/
def readItems (r : GuardedReading) (item : TypeExpr) (e : Pending) :
    GuardedDecoder (List Value) := do
  let _ ← capacity e
  let rev ← fold (fun rev => do
    let v ← r.part item
    pure (v :: rev)) e []
  pure rev.reverse

/-- The slot of a field that is there. -/
def readSlot (r : GuardedReading) (name : String) (type : TypeExpr) (presence : Presence) :
    GuardedDecoder (Option Value) := do
  if presence = .nullable then
    let b ← lookAhead (byte name)
    if b = nullByte then
      let _ ← byte name
      pure none
    else
      let v ← r.part type
      pure (some v)
  else
    let v ← r.part type
    pure (some v)

/-- One element per field, in order; then what is still to come. -/
def readByPosition (r : GuardedReading) (name : String) :
    List Field → Pending → GuardedDecoder (List (Option Value) × Pending)
  | [], e => pure ([], e)
  | f :: fs, e => do
    let (more, e) ← next e
    if more then
      match f.body with
      | .literal literal => do
        expectLiteral name r.options.maxStringLength f.key literal
        readByPosition r name fs e
      | .value type presence => do
        let slot ← readSlot r name type presence
        let (slots, e) ← readByPosition r name fs e
        pure (slot :: slots, e)
    else if f.presence = .optional then do
      let (slots, e) ← readByPosition r name fs e
      pure (none :: slots, e)
    else refuse (.missingField name f.key)

/-- Pass over the elements that are to come, and count them. -/
def skipElements (r : GuardedReading) (e : Pending) : GuardedDecoder Nat :=
  fold (fun n => do
    let levels ← levelsLeft r
    skip levels
    pure (n + 1)) e 0

/-- The slots of a tuple. -/
def readPositional (s : Shape) (r : GuardedReading) (fields : List Field) (e : Pending) :
    GuardedDecoder (List (Option Value)) := do
  let (slots, e) ← readByPosition r s.name fields e
  let extra ← skipElements r e
  if 0 < extra && !s.extensible then
    refuse (.fieldCount s.name fields.length (fields.length + extra))
  else pure slots

/-- An array of a shape. -/
def readArray (s : Shape) (r : GuardedReading) : GuardedDecoder Parts := do
  let e ← openCollection s r .array
  match s.layout with
  | some (.items item) => do
    let items ← readItems r item e
    pure { name := s.name, content := .items items, style := e.style }
  | some (.fields fields) => do
    let slots ← readPositional s r fields e
    pure { name := s.name, content := .fields slots, style := e.style }
  | _ => fault .layout

/-! ## 3. Constructors -/

/-- The index in front of the fields in the general form. -/
def readPairIndex (name : String) : GuardedDecoder UInt64 := do
  let pair ← head name
  if pair.major ≠ .array || pair.arg ≠ some 2 then
    refuse (.unexpectedMajor name "general constructor pair" pair.major)
  else
    let index ← head name
    match index.major, index.arg with
    | .unsigned, some i => pure i
    | found, _ => refuse (.unexpectedMajor name "constructor index" found)

/-- The index that the front of a constructor stands for. -/
def readConstructorIndex (name : String) : GuardedDecoder UInt64 := do
  let h ← head name
  if h.major ≠ .tag then refuse (.unexpectedMajor name "constructor tag" h.major)
  else
    let tag ← argument h
    match Tag.index? tag with
    | some index => pure index
    | none =>
      if tag = Tag.general then readPairIndex name
      else refuse (.unknownConstructorTag name tag)

/-- A constructor of a shape. -/
def readConstructor (s : Shape) (r : GuardedReading) : GuardedDecoder Parts := do
  let index ← readConstructorIndex s.name
  ofExcept (s.checkIndex index)
  let parts ← readArray s r
  pure { parts with alternative := some index }

end Guarded

/-! ## 4. Loops -/

/-- A turn of a loop up to a break: no element follows, or one step is made. -/
theorem Decoder.untilBreak_eq {σ : Type} (step : σ → Decoder σ) (turns : Nat) (s : σ) :
    Decoder.untilBreak step (turns + 1) s = Pending.toBreak.another >>= fun p =>
      if p.1 = true then step s >>= Decoder.untilBreak step turns else pure s := by
  rw [Decoder.untilBreak, Pending.another, Decoder.bind_assoc]
  congr 1
  funext b
  cases b with
  | true =>
    rw [if_pos rfl, if_pos rfl, Decoder.bind_assoc]
    rfl
  | false =>
    rw [if_neg Bool.false_ne_true, if_neg Bool.false_ne_true, Decoder.pure_bind, if_pos rfl]

namespace Follows

variable {α β σ τ : Type} {depth : Nat} {R : σ → τ → Prop} {S : α → β → Prop}

theorem next_toBreak : Follows depth (fun p q => p = q ∧ (p.1 = true → p.2 = .toBreak))
    (Guarded.next .toBreak) Pending.toBreak.another := by
  refine Tracks.atBreak.follows.andThen fun b => ?_
  split
  · exact (Tracks.closing _).follows.bind fun _ _ _ => pure ⟨rfl, fun h => by cases h⟩
  · exact pure ⟨rfl, fun _ => rfl⟩

/-- **Whether another element follows**; one is counted off only where one is left. -/
theorem next (e : Pending) : Follows depth Eq (Guarded.next e) e.another := by
  cases e with
  | counted n =>
    cases n with
    | zero => exact pure rfl
    | succ n =>
      rw [Guarded.next, if_neg (Nat.succ_ne_zero n), Guarded.minus_of_le (Nat.le_add_left 1 n)]
      exact pure rfl
  | toBreak => exact next_toBreak.mono fun _ _ h => h.1

variable {step : σ → GuardedDecoder σ} {step' : τ → Decoder τ}

theorem whileNext_counted (hstep : ∀ s t, R s t → Follows depth R (step s) (step' t)) (n : Nat)
    {s : σ} {t : τ} (h : R s t) :
    Follows depth R (Guarded.whileNext step (n + 1) (.counted n) s) (Decoder.times step' n t) := by
  induction n generalizing s t with
  | zero => exact pure h
  | succ n ih =>
    have hnext : (Guarded.next (.counted (n + 1)) : GuardedDecoder (Bool × Pending)) =
        Pure.pure (true, .counted n) := by
      rw [Guarded.next, if_neg (Nat.succ_ne_zero n), Guarded.minus_of_le (Nat.le_add_left 1 n)]
      rfl
    rw [Guarded.whileNext, hnext]
    exact (hstep s t h).bind fun s t h => ih h

theorem whileNext_toBreak (hstep : ∀ s t, R s t → Follows depth R (step s) (step' t)) (turns : Nat)
    {s : σ} {t : τ} (h : R s t) :
    Follows depth R (Guarded.whileNext step turns .toBreak s)
      (Decoder.untilBreak step' turns t) := by
  induction turns generalizing s t with
  | zero => exact refuse _
  | succ turns ih =>
    rw [Decoder.untilBreak_eq]
    refine next_toBreak.bind fun p _ hp => ?_
    obtain ⟨rfl, hmore⟩ := hp
    obtain ⟨more, e⟩ := p
    dsimp only
    split
    · rename_i hm
      cases hmore hm
      exact (hstep s t h).bind fun s t h => ih h
    · exact pure h

/-- **A loop over elements.** -/
theorem fold (hstep : ∀ s t, R s t → Follows depth R (step s) (step' t)) (e : Pending)
    {s : σ} {t : τ} (h : R s t) : Follows depth R (Guarded.fold step e s) (e.fold step' t) := by
  refine remaining_bind fun buffer position hle => ?_
  cases e with
  | counted n => exact whileNext_counted hstep n h buffer position hle
  | toBreak =>
    rw [← List.length_drop]
    exact whileNext_toBreak hstep _ h buffer position hle

/-- Making room reads nothing. -/
theorem capacity_bind {g : GuardedDecoder α} {d : Decoder β} (e : Pending)
    (h : Follows depth S g d) : Follows depth S (Guarded.capacity e >>= fun _ => g) d := by
  have hroom : Follows depth (fun _ _ => True) (Guarded.capacity e) (Pure.pure ()) := by
    refine remaining_bind fun buffer position hle => ?_
    cases e with
    | counted n => exact .answer trivial (Nat.le_refl _) hle
    | toBreak => exact .answer trivial (Nat.le_refl _) hle
  rw [← Decoder.pure_bind () fun _ => d]
  exact hroom.bind fun _ _ _ => h

theorem readPairIndex (name : String) :
    Follows depth Eq (Guarded.readPairIndex name) (CborSchema.readPairIndex name) := by
  refine (head name).bind fun pair _ heq => ?_
  obtain ⟨rfl, _⟩ := heq
  split
  · exact refuse _
  · refine (head name).bind fun index _ heq => ?_
    obtain ⟨rfl, _⟩ := heq
    rcases index with ⟨major, info, arg⟩
    cases major with
    | unsigned =>
      cases arg with
      | some i => exact pure rfl
      | none => exact refuse _
    | _ => exact refuse _

/-- **A tag has an argument.** -/
theorem readConstructorIndex (name : String) :
    Follows depth Eq (Guarded.readConstructorIndex name)
      (CborSchema.readConstructorIndex name) := by
  refine (head name).bind fun h _ heq => ?_
  obtain ⟨rfl, hs⟩ := heq
  by_cases hm : h.major = .tag
  · rw [if_neg (not_not.mpr hm), if_neg (not_not.mpr hm)]
    refine argument_bind (hs.arg_ne_none (by rw [hm]; rfl)) ?_
    dsimp only
    cases Tag.index? (h.arg.getD 0) with
    | some index => exact pure rfl
    | none =>
      dsimp only
      split
      · exact readPairIndex name
      · exact refuse _
  · rw [if_pos hm, if_pos hm]
    exact refuse _

end Follows

/-! ## 5. Arrays and constructors -/

namespace Mirrors

variable {α β : Type} {depth : Nat} {g : GuardedReading} {r : Reading} {S : α → β → Prop}

theorem openCollection (hr : Mirrors depth g r) (s : Shape) (major : Major) :
    Follows depth Eq (Guarded.openCollection s g major) (s.openCollection r major) := by
  refine (Follows.head s.name).bind fun h _ heq => ?_
  obtain ⟨rfl, _⟩ := heq
  split
  · exact Follows.refuse _
  · refine (Follows.ofExcept _).andThen fun _ => ?_
    cases ha : h.arg with
    | none =>
      rw [if_pos (by rw [Head.isIndefinite, ha]; rfl), if_pos (by rw [Head.isIndefinite, ha]; rfl)]
      exact Follows.pure rfl
    | some n =>
      have hi : ¬ h.isIndefinite = true := by
        rw [Head.isIndefinite, ha]
        exact Bool.false_ne_true
      rw [if_neg hi, if_neg hi, hr.options]
      have ha : h.arg ≠ none := by simp [ha]
      refine (Tracks.boundedLength ha _ s.name).follows.andThen fun n => ?_
      exact Follows.pure rfl

/-- The nesting that is left is what the reading has. -/
theorem levelsLeft_bind (hr : Mirrors depth g r) {f : Nat → GuardedDecoder α} {d : Decoder β}
    (h : Follows depth S (f r.depth) d) : Follows depth S (Guarded.levelsLeft g >>= f) d := by
  intro buffer position hle
  have hleft : Guarded.levelsLeft g ⟨⟨buffer, position⟩, depth⟩ =
      (.answer r.depth, ⟨⟨buffer, position⟩, depth⟩) := by
    have hlevels := hr.levels
    rw [Guarded.levelsLeft, hr.options, ← hlevels, Nat.add_sub_cancel_left]
  rw [Guarded.bind_of_answer hleft]
  exact h buffer position hle

theorem readItems (hr : Mirrors depth g r) (item : TypeExpr) (e : Pending) :
    Follows depth Eq (Guarded.readItems g item e) (CborSchema.readItems r item e) := by
  refine Follows.capacity_bind e ?_
  refine (Follows.fold (R := Eq) (fun rev _ heq => ?_) e rfl).andThen fun rev => Follows.pure rfl
  subst heq
  refine (hr.part item).andThen fun v => ?_
  exact Follows.pure rfl

theorem readSlot (hr : Mirrors depth g r) (name : String) (type : TypeExpr) (presence : Presence) :
    Follows depth Eq (Guarded.readSlot g name type presence)
      (CborSchema.readSlot r name type presence) := by
  have hpart : Follows depth Eq (g.part type >>= fun v => pure (some v))
      (r.part type >>= fun v => pure (some v)) := by
    refine (hr.part type).andThen fun v => ?_
    exact Follows.pure rfl
  unfold Guarded.readSlot CborSchema.readSlot
  split
  · refine (Tracks.byte name).lookAhead.follows.andThen fun b => ?_
    split
    · exact (Tracks.byte name).follows.andThen fun _ => Follows.pure rfl
    · exact hpart
  · exact hpart

theorem readByPosition (hr : Mirrors depth g r) (name : String) (fields : List Field)
    (e : Pending) : Follows depth Eq (Guarded.readByPosition g name fields e)
      (CborSchema.readByPosition r name fields e) := by
  induction fields generalizing e with
  | nil => exact Follows.pure rfl
  | cons f fs ih =>
    refine (Follows.next e).andThen fun p => ?_
    obtain ⟨more, e⟩ := p
    dsimp only
    split
    · cases f.body with
      | literal literal =>
        dsimp only
        rw [hr.options]
        exact (Follows.expectLiteral name _ f.key literal).andThen fun _ => ih e
      | value type presence =>
        refine (hr.readSlot name type presence).andThen fun slot => ?_
        refine (ih e).andThen fun q => ?_
        exact Follows.pure rfl
    · split
      · refine (ih e).andThen fun q => ?_
        exact Follows.pure rfl
      · exact Follows.refuse _

theorem skipElements (hr : Mirrors depth g r) (e : Pending) :
    Follows depth Eq (Guarded.skipElements g e) (CborSchema.skipElements r e) := by
  refine Follows.fold (fun n _ heq => ?_) e rfl
  subst heq
  refine hr.levelsLeft_bind ?_
  exact (Tracks.skip r.depth).follows.andThen fun _ => Follows.pure rfl

theorem readPositional (hr : Mirrors depth g r) (s : Shape) (fields : List Field) (e : Pending) :
    Follows depth Eq (Guarded.readPositional s g fields e) (s.readPositional r fields e) := by
  refine (hr.readByPosition s.name fields e).andThen fun p => ?_
  obtain ⟨slots, e⟩ := p
  refine (hr.skipElements e).andThen fun extra => ?_
  split
  · exact Follows.refuse _
  · exact Follows.pure rfl

/-- **An array of a shape with a layout for it.** -/
theorem readArray (hr : Mirrors depth g r) {s : Shape} (hs : s.HasArray) :
    Follows depth Eq (Guarded.readArray s g) (s.readArray r) := by
  refine (hr.openCollection s .array).andThen fun e => ?_
  rcases hs with ⟨item, hl⟩ | ⟨fields, hl, _⟩
  · rw [hl]
    refine (hr.readItems item e).andThen fun items => ?_
    exact Follows.pure rfl
  · rw [hl]
    refine (hr.readPositional s fields e).andThen fun slots => ?_
    exact Follows.pure rfl

-- a list that was not checked may have no layout
example : ((Shape.ofSchema "list" .list).map fun s =>
    (Guarded.readArray s ⟨{}, fun _ => Guarded.fault .depth⟩ ⟨⟨[0x80], 0⟩, 0⟩).1) =
      .ok (.fault .layout) := by rfl

/-- **A constructor of a shape with a layout for its fields.** -/
theorem readConstructor (hr : Mirrors depth g r) {s : Shape} (hs : s.HasArray) :
    Follows depth Eq (Guarded.readConstructor s g) (s.readConstructor r) := by
  refine (Follows.readConstructorIndex s.name).andThen fun index => ?_
  refine (Follows.ofExcept _).andThen fun _ => ?_
  refine (hr.readArray hs).andThen fun parts => ?_
  exact Follows.pure rfl

end Mirrors

end CborSchema
