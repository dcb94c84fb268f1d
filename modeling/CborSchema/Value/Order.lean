import CborSchema.Value.Basic

/-!
# Maps in key order

The entries of an ordered map stand in ascending order of their keys, each key once.

* `insertNew` puts an entry in its place and answers nothing if the key is there already;
* `orderEntries` puts entries in one after the other and names the first that repeats a key;
* `replaceEntry`, `overrideEntries` let the later entry win instead.
* `Value.compareScalars` is the order of scalar keys: numbers by size, texts and bytes by their
  bytes.
-/

namespace CborSchema

/-! ## 1. The order of scalars -/

/-- Bytes in lexicographic order; a string precedes its extensions. -/
def compareBytes : Bytes → Bytes → Ordering
  | [], [] => .eq
  | [], _ :: _ => .lt
  | _ :: _, [] => .gt
  | a :: as, b :: bs => (compare a.toNat b.toNat).then (compareBytes as bs)

/-- The place of a kind of scalar among the others. -/
def Scalar.rank : Scalar → Nat
  | .bool _ => 0
  | .uint _ => 1
  | .nint _ => 2
  | .int _ => 3
  | .bytes _ => 4
  | .text _ => 5
  | .null => 6

/-- Scalars of one kind by what they hold, of different kinds by their kind. -/
def Scalar.compare : Scalar → Scalar → Ordering
  | .bool a, .bool b => Ord.compare a b
  | .uint a, .uint b => Ord.compare a.toNat b.toNat
  | .nint a, .nint b => Ord.compare b.toNat a.toNat
  | .int a, .int b => Ord.compare a.toInt b.toInt
  | .bytes a, .bytes b => compareBytes a b
  | .text a, .text b => compareBytes a.toByteArray.data.toList b.toByteArray.data.toList
  | a, b => Ord.compare a.rank b.rank

/-- The order of values that are scalars; other values are not told apart. -/
def Value.compareScalars (a b : Value) : Ordering :=
  match a.content, b.content with
  | .scalar a, .scalar b => a.compare b
  | _, _ => .eq

/-! ## 2. Entries in order -/

variable (cmp : Value → Value → Ordering)

/-- Put an entry in its place; nothing if the key is there already. -/
def insertNew (k v : Value) : List (Value × Value) → Option (List (Value × Value))
  | [] => some [(k, v)]
  | (k', v') :: es =>
    match cmp k k' with
    | .lt => some ((k, v) :: (k', v') :: es)
    | .eq => none
    | .gt => (insertNew k v es).map ((k', v') :: ·)

/-- Put entries in one after the other; the error is the position of the first that repeats a
    key, counted from `position`. -/
def orderEntries (position : Nat) (done : List (Value × Value)) :
    List (Value × Value) → Except Nat (List (Value × Value))
  | [] => .ok done
  | (k, v) :: es =>
    match insertNew cmp k v done with
    | some done => orderEntries (position + 1) done es
    | none => .error position

/-- Put an entry in its place, over an entry with the same key. -/
def replaceEntry (k v : Value) : List (Value × Value) → List (Value × Value)
  | [] => [(k, v)]
  | (k', v') :: es =>
    match cmp k k' with
    | .lt => (k, v) :: (k', v') :: es
    | .eq => (k', v) :: es
    | .gt => (k', v') :: replaceEntry k v es

/-- Entries in order, the later of two with one key in the place of the earlier. -/
def overrideEntries (entries : List (Value × Value)) : List (Value × Value) :=
  entries.foldl (fun done e => replaceEntry cmp e.1 e.2 done) []

end CborSchema
