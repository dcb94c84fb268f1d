import CborSchema.Shape.TypeExpr

/-!
# Outcomes

What a run answers, together with the types whose shapes it asked for on the way, in order. A run
that fails still tells what it reached before.

* `Outcome.bind` runs one step after another, and what both reached counts;
* `result_bind`: the answer of a run does not depend on what was reached.
-/

namespace CborSchema

/-- An answer and the types reached on the way to it. -/
structure Outcome (ε α : Type) where
  result : Except ε α
  reached : List TypeExpr

namespace Outcome

/-- The next step, where the first one answered. What the first one reached is not copied where the
    next one reaches nothing more. -/
def bind (x : Outcome ε α) (f : α → Outcome ε β) : Outcome ε β :=
  match x.result with
  | .ok a =>
    let y := f a
    match y.reached with
    | [] => ⟨y.result, x.reached⟩
    | t :: ts => ⟨y.result, x.reached ++ t :: ts⟩
  | .error e => ⟨.error e, x.reached⟩

instance : Monad (Outcome ε) where
  pure a := ⟨.ok a, []⟩
  bind := bind

/-- Change the answer. -/
def map (f : α → β) (x : Outcome ε α) : Outcome ε β := ⟨x.result.map f, x.reached⟩

/-- An answer that reaches no type. -/
def ofExcept (r : Except ε α) : Outcome ε α := ⟨r, []⟩

/-- A failure that reaches no type. -/
def fail (e : ε) : Outcome ε α := ofExcept (.error e)

@[simp] theorem result_pure (a : α) : (pure a : Outcome ε α).result = .ok a := rfl

@[simp] theorem reached_pure (a : α) : (pure a : Outcome ε α).reached = [] := rfl

/-- **The answer of two steps depends on their answers only.** -/
theorem result_bind (x : Outcome ε α) (f : α → Outcome ε β) :
    (x >>= f).result = x.result >>= fun a => (f a).result := by
  show (x.bind f).result = x.result.bind fun a => (f a).result
  unfold bind
  cases x.result with
  | error e => rfl
  | ok a => cases h : (f a).reached <;> simp only [h] <;> rfl

/-- What the first step reached comes first. -/
theorem reached_bind (x : Outcome ε α) (f : α → Outcome ε β) :
    (x >>= f).reached =
      x.reached ++ match x.result with
        | .ok a => (f a).reached
        | .error _ => [] := by
  show (x.bind f).reached = _
  unfold bind
  cases x.result with
  | error e => simp
  | ok a => cases h : (f a).reached <;> simp [h]

/-- The parts written for each member of a list, one after the other. -/
def concat (f : α → Outcome ε (List β)) : List α → Outcome ε (List β)
  | [] => pure []
  | a :: as => do
    let part ← f a
    (concat f as).map (part ++ ·)

end Outcome

end CborSchema
