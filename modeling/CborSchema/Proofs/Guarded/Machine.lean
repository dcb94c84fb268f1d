import CborSchema.Proofs.Decode.Loops

/-!
# Guarded runs

A converter keeps branches for states that it should never be in: a list without a layout for
arrays, a field with a value but no slot, a counter that would fall below zero. A guarded run is a
run with all of these branches, each of which ends it with a fault. It moves a position over a
buffer and counts how deep the values on the way are nested, so that it can go wrong where a run on
the bytes that are left cannot.

* `Fault` -- the branches that should never be taken;
* `Guarded` -- a run over states that answers, refuses or faults, and leaves a state in each case;
* `nested` -- a run one level below, which counts the level up and down again, also when it fails;
* `remaining`, `byte`, `take`, `head`, … -- reading at a position;
* `EndsAs`, `Follows` -- a guarded run ends as a decoder does: with its answer or its refusal, never
  with a fault, at a position that is not before the old one nor behind the buffer, and at the same
  depth.

The rules for `Follows` go along the structure of a decoder; a fault has none.
-/

namespace CborSchema

/-! ## 1. Runs that may fault -/

/-- The branches that a run keeps for states it should never be in. -/
inductive Fault where
  /-- An array or a map without a layout for it. -/
  | layout
  /-- A field with a value, but without a slot for it. -/
  | slot
  /-- A constructor without an alternative. -/
  | alternative
  /-- A string to be cut into chunks of no bytes. -/
  | chunkSize
  /-- A head without an argument where one is needed. -/
  | argument
  /-- A level to be left that was not entered, or one below the deepest. -/
  | depth
  /-- An element to be counted off where none is left. -/
  | elements
  /-- A position behind the end of the buffer. -/
  | remaining
  deriving DecidableEq, Repr

/-- How a guarded run ends. -/
inductive Ending (ε α : Type) where
  | answer (a : α)
  | refusal (e : ε)
  | fault (f : Fault)
  deriving Repr

/-- The ending of a run that cannot fault. -/
def Ending.ofExcept {ε α : Type} : Except ε α → Ending ε α
  | .ok a => .answer a
  | .error e => .refusal e

/-- A run over states `σ`, which is left in a state however it ends. -/
def Guarded (σ ε α : Type) := σ → Ending ε α × σ

/-- What a run works on, and how deep the values on the way are nested. -/
structure Machine (σ : Type) where
  body : σ
  depth : Nat

namespace Guarded

variable {σ ε α β : Type}

/-- The next run where the first one answered, on the state that it left. -/
def bind (g : Guarded σ ε α) (f : α → Guarded σ ε β) : Guarded σ ε β := fun m =>
  match g m with
  | (.answer a, m) => f a m
  | (.refusal e, m) => (.refusal e, m)
  | (.fault f, m) => (.fault f, m)

instance : Monad (Guarded σ ε) where
  pure a := fun m => (.answer a, m)
  bind := bind

/-- Refuse. -/
def refuse (e : ε) : Guarded σ ε α := fun m => (.refusal e, m)

/-- Fault. -/
def fault (f : Fault) : Guarded σ ε α := fun m => (.fault f, m)

/-- Go on with a result that the state plays no part in. -/
def ofExcept (r : Except ε α) : Guarded σ ε α := fun m => (.ofExcept r, m)

/-- A difference of counters, which must not fall below zero. -/
def minus (a b : Nat) (f : Fault) : Guarded σ ε Nat := if b ≤ a then pure (a - b) else fault f

/-- A run one level below: the level is entered unless it is too deep, and left however the run
    ends. -/
def nested (max : Nat) (tooDeep : ε) (g : Guarded (Machine σ) ε α) :
    Guarded (Machine σ) ε α := fun m =>
  if max ≤ m.depth then (.refusal tooDeep, m)
  else
    let (ending, m) := g { m with depth := m.depth + 1 }
    if m.depth = 0 then (.fault .depth, m) else (ending, { m with depth := m.depth - 1 })

theorem bind_apply (g : Guarded σ ε α) (f : α → Guarded σ ε β) (m : σ) :
    (g >>= f) m = match g m with
      | (.answer a, m) => f a m
      | (.refusal e, m) => (.refusal e, m)
      | (.fault f, m) => (.fault f, m) := rfl

theorem bind_of_answer {g : Guarded σ ε α} {f : α → Guarded σ ε β} {m m' : σ} {a : α}
    (h : g m = (.answer a, m')) : (g >>= f) m = f a m' := by
  rw [bind_apply, h]

theorem bind_of_refusal {g : Guarded σ ε α} {f : α → Guarded σ ε β} {m m' : σ} {e : ε}
    (h : g m = (.refusal e, m')) : (g >>= f) m = (.refusal e, m') := by
  rw [bind_apply, h]

theorem minus_of_le {a b : Nat} (h : b ≤ a) (f : Fault) :
    (minus a b f : Guarded σ ε Nat) = pure (a - b) := if_pos h

end Guarded

/-! ## 2. Reading at a position -/

/-- A buffer and a position, which may be anywhere. -/
structure Place where
  buffer : Bytes
  position : Nat

/-- A guarded run that reads. -/
abbrev GuardedDecoder (α : Type) := Guarded (Machine Place) DecodeError α

namespace Guarded

variable {α : Type}

/-- How many bytes are left behind the position. -/
def remaining : GuardedDecoder Nat := fun m =>
  minus m.body.buffer.length m.body.position .remaining m

theorem remaining_of_le {m : Machine Place} (h : m.body.position ≤ m.body.buffer.length) :
    remaining m = (.answer (m.body.buffer.length - m.body.position), m) := by
  rw [remaining, minus_of_le h]
  rfl

/-- The byte at the position. -/
def peekByte (context : String) : GuardedDecoder UInt8 := fun m =>
  match m.body.buffer[m.body.position]? with
  | some b => (.answer b, m)
  | none => (.refusal (.wire (.endOfInput context)), m)

theorem peekByte_of_lt {m : Machine Place} (h : m.body.position < m.body.buffer.length)
    (context : String) : peekByte context m = (.answer m.body.buffer[m.body.position], m) := by
  rw [peekByte, List.getElem?_eq_getElem h]

theorem peekByte_of_le {m : Machine Place} (h : m.body.buffer.length ≤ m.body.position)
    (context : String) : peekByte context m = (.refusal (.wire (.endOfInput context)), m) := by
  rw [peekByte, List.getElem?_eq_none h]

/-- The bytes from the position on, and the position behind them. -/
def advance (n : Nat) : GuardedDecoder Bytes := fun m =>
  (.answer ((m.body.buffer.drop m.body.position).take n),
    { m with body.position := m.body.position + n })

/-- One byte. -/
def byte (context : String) : GuardedDecoder UInt8 := do
  let b ← peekByte context
  let _ ← advance 1
  pure b

/-- Exactly `n` bytes; where fewer are left none is used up. -/
def take (n : Nat) (context : String) : GuardedDecoder Bytes := do
  let left ← remaining
  if left < n then refuse (.wire (.endOfInput context)) else advance n

/-- A head. -/
def head (context : String) : GuardedDecoder Head := do
  let initial ← byte context
  let major := Major.ofInitial initial
  let info := initial &&& 0x1f
  if info < 24 then
    pure ⟨major, info, some info.toUInt64⟩
  else match announcedSize info with
    | some n => do
      let argument ← take n context
      pure ⟨major, info, some (UInt64.ofNat (ofBigEndian argument))⟩
    | none =>
      if info = 31 ∧ major.hasOpenForm then pure ⟨major, info, none⟩
      else refuse (.wire (.invalidInfo info context))

/-- A run on a copy of the state. -/
def lookAhead (g : GuardedDecoder α) : GuardedDecoder α := fun m => ((g m).1, m)

/-- Whether the byte at the position is the break code. -/
def atBreak : GuardedDecoder Bool := fun m =>
  (.answer (m.body.buffer[m.body.position]? == some breakByte), m)

/-- The break code that closes an indefinite item. -/
def closing (context : String) : GuardedDecoder Unit := do
  let b ← byte context
  if b = breakByte then pure () else refuse (.wire (.invalidChunk context))

/-- The argument of a head that must have one. -/
def argument (h : Head) : GuardedDecoder UInt64 :=
  match h.arg with
  | some n => pure n
  | none => fault .argument

/-- A run and the bytes from the position before it to the position behind it. -/
def spanned (g : GuardedDecoder α) : GuardedDecoder (α × Bytes) := fun m =>
  let start := m.body.position
  (do
    let a ← g
    let span ← fun m =>
      (.answer ((m.body.buffer.drop start).take (m.body.position - start)), m)
    pure (a, span)) m

end Guarded

/-! ## 3. Ending as a decoder -/

section follows

variable {α β γ δ : Type}

/-- A guarded run from a position on ends as a decoder on the bytes that are left there: it answers
    with what the answer is related to, or refuses for the same reason. It has moved forward within
    the buffer, and stands at the depth at which it began. -/
inductive EndsAs (buffer : Bytes) (position depth : Nat) (R : α → β → Prop) :
    Except DecodeError (β × Bytes) → Ending DecodeError α × Machine Place → Prop where
  | answer {a : α} {b : β} {position' : Nat} (hR : R a b) (hfrom : position ≤ position')
      (hto : position' ≤ buffer.length) : EndsAs buffer position depth R
        (.ok (b, buffer.drop position')) (.answer a, ⟨⟨buffer, position'⟩, depth⟩)
  | refusal {e : DecodeError} {position' : Nat} (hfrom : position ≤ position')
      (hto : position' ≤ buffer.length) : EndsAs buffer position depth R
        (.error e) (.refusal e, ⟨⟨buffer, position'⟩, depth⟩)

/-- From every position in a buffer, at a depth, a guarded run ends as a decoder. -/
def Follows (depth : Nat) (R : α → β → Prop) (g : GuardedDecoder α) (d : Decoder β) : Prop :=
  ∀ (buffer : Bytes) (position : Nat), position ≤ buffer.length →
    EndsAs buffer position depth R (d (buffer.drop position)).result (g ⟨⟨buffer, position⟩, depth⟩)

/-- What ends as a decoder from a later position ends so from an earlier one. -/
theorem EndsAs.from_before {buffer : Bytes} {position before depth : Nat} {R : α → β → Prop}
    {x : Except DecodeError (β × Bytes)} {y : Ending DecodeError α × Machine Place}
    (h : EndsAs buffer position depth R x y) (hle : before ≤ position) :
    EndsAs buffer before depth R x y := by
  cases h with
  | answer hR hfrom hto => exact .answer hR (Nat.le_trans hle hfrom) hto
  | refusal hfrom hto => exact .refusal (Nat.le_trans hle hfrom) hto

namespace Follows

variable {depth : Nat} {R : α → β → Prop} {S : γ → δ → Prop}

open Guarded

theorem pure {a : α} {b : β} (h : R a b) : Follows depth R (Pure.pure a) (Pure.pure b) :=
  fun _ _ hle => .answer h (Nat.le_refl _) hle

theorem refuse (e : DecodeError) : Follows depth R (Guarded.refuse e) (Decoder.fail e) :=
  fun _ _ hle => .refusal (Nat.le_refl _) hle

theorem ofExcept (r : Except DecodeError α) :
    Follows depth Eq (Guarded.ofExcept r) (Decoder.ofExcept r) := by
  cases r with
  | ok a => exact pure rfl
  | error e => exact refuse e

/-- **Two guarded runs end as two decoders**, the second from where the first stopped. -/
theorem bind {g : GuardedDecoder α} {d : Decoder β} {f : α → GuardedDecoder γ} {k : β → Decoder δ}
    (hg : Follows depth R g d) (hf : ∀ a b, R a b → Follows depth S (f a) (k b)) :
    Follows depth S (g >>= f) (d >>= k) := by
  intro buffer position hle
  have hfirst := hg buffer position hle
  generalize hd : (d (buffer.drop position)).result = x at hfirst
  generalize hm : g ⟨⟨buffer, position⟩, depth⟩ = y at hfirst
  cases hfirst with
  | answer hR hfrom hto =>
    rw [Decoder.bind_of_ok hd, bind_of_answer hm]
    exact (hf _ _ hR buffer _ hto).from_before hfrom
  | refusal hfrom hto =>
    rw [Decoder.bind_of_error hd, bind_of_refusal hm]
    exact .refusal hfrom hto

/-- A run that answers as the decoder does, and what follows on the answer. -/
theorem andThen {g : GuardedDecoder α} {d : Decoder α} {f : α → GuardedDecoder γ}
    {k : α → Decoder δ} (hg : Follows depth Eq g d) (hf : ∀ a, Follows depth S (f a) (k a)) :
    Follows depth S (g >>= f) (d >>= k) := by
  refine hg.bind fun a b heq => ?_
  subst heq
  exact hf a

/-- A guarded run of more than is answered. -/
theorem mono {T : α → β → Prop} {g : GuardedDecoder α} {d : Decoder β} (hg : Follows depth R g d)
    (h : ∀ a b, R a b → T a b) : Follows depth T g d := by
  intro buffer position hle
  have hrun := hg buffer position hle
  generalize (d (buffer.drop position)).result = x at hrun ⊢
  generalize g ⟨⟨buffer, position⟩, depth⟩ = y at hrun ⊢
  cases hrun with
  | answer hR hfrom hto => exact .answer (h _ _ hR) hfrom hto
  | refusal hfrom hto => exact .refusal hfrom hto

/-- **One level below and back again.** -/
theorem nested {g : GuardedDecoder α} {d : Decoder β} (hg : Follows (depth + 1) R g d) {max : Nat}
    (hmax : depth < max) (e : DecodeError) : Follows depth R (Guarded.nested max e g) d := by
  intro buffer position hle
  have hrun := hg buffer position hle
  rw [Guarded.nested, if_neg (Nat.not_le.mpr hmax)]
  dsimp only
  generalize (d (buffer.drop position)).result = x at hrun ⊢
  generalize g ⟨⟨buffer, position⟩, depth + 1⟩ = y at hrun ⊢
  cases hrun with
  | answer hR hfrom hto => exact .answer hR hfrom hto
  | refusal hfrom hto => exact .refusal hfrom hto

/-- What a decoder used up lies between the two positions. -/
theorem spanned {g : GuardedDecoder α} {d : Decoder α} (hg : Follows depth Eq g d) :
    Follows depth Eq (Guarded.spanned g) d.spanned := by
  intro buffer position hle
  have hrun := hg buffer position hle
  show EndsAs buffer position depth _ ((d (buffer.drop position)) >>= _).result _
  rw [Outcome.result_bind]
  generalize (d (buffer.drop position)).result = x at hrun ⊢
  generalize hm : g ⟨⟨buffer, position⟩, depth⟩ = y at hrun
  cases hrun with
  | @answer _ _ position' hR hfrom hto =>
    rw [Guarded.spanned, bind_of_answer hm]
    refine .answer (Prod.ext hR ?_) hfrom hto
    have hspan : (buffer.drop position).length - (buffer.drop position').length
        = position' - position := by
      simp only [List.length_drop]
      omega
    exact (congrArg (List.take · (buffer.drop position)) hspan).symm
  | refusal hfrom hto =>
    rw [Guarded.spanned, bind_of_refusal hm]
    exact .refusal hfrom hto

end Follows

end follows

end CborSchema
