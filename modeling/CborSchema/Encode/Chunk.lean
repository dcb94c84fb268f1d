/-!
# Chunks

A sequence is cut from the left into pieces that are as long as they may be: each unit has a weight,
and a piece weighs at most a given size. A unit heavier than the size is a piece of its own.

* `fill` puts the next units into the piece that has room left;
* `chunks` cuts a whole sequence.
-/

namespace CborSchema

/-- What still fits into the piece at hand, and the pieces after it. -/
def fill (weight : α → Nat) (size room : Nat) : List α → List α × List (List α)
  | [] => ([], [])
  | a :: as =>
    if weight a ≤ room then
      let (piece, pieces) := fill weight size (room - weight a) as
      (a :: piece, pieces)
    else
      let (piece, pieces) := fill weight size (size - weight a) as
      ([], (a :: piece) :: pieces)

/-- The pieces of a sequence. -/
def chunks (weight : α → Nat) (size : Nat) : List α → List (List α)
  | [] => []
  | a :: as =>
    let (piece, pieces) := fill weight size (size - weight a) as
    (a :: piece) :: pieces

end CborSchema
