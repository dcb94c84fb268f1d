import CborSchema.Encode.Collection
import CborSchema.Proofs.Decode.Inside

/-!
# Places

Where in the bytes of a value the items of the values in it stand.

* `Value.at?` -- the value at a path: at each step the number of a part;
* `Value.forall_at`, `Value.forall_below` -- what holds of all that lies in a value;
* `Stretch m n xs pre post` -- in a collection the items `xs` stand from number `n` on, between
  `pre` and `post`; `fieldParts` -- the part of each number with its field and the place of the
  field;
* `Shape.ReadPlace` -- the place of a part in bytes that were read: the item of its number in a
  list, the element in the place of its field, or what stands under the key of its field;
* `Shape.WrittenPlace` -- the place of a part in bytes that were written: behind all that is written
  in front of it, piece by piece;
* `Lies c M n v b path y pre u post` -- in the bytes `b` of `v` the item of the value `y` at `path`
  is `u`, between `pre` and `post`, with such a place at each step; `Lies.split` -- a place in a
  place.

What is read may hold more than the parts of the value: items that are passed over, and slots that
the type does not take. So a part is found by the number of its item there, and every item of the
collection counts. What is written holds nothing else, and is spelled out.
-/

namespace CborSchema

/-! ## 1. Paths -/

/-- The value at a path: at each step the number of a part. -/
def Value.at? (v : Value) : List Nat → Option Value
  | [] => some v
  | i :: path => v.content.parts[i]?.bind fun z => z.at? path

/-- Whatever lies in a part of a value lies in the value. -/
theorem Value.at?_of_part {v z y : Value} {path : List Nat} (hz : z ∈ v.content.parts)
    (hy : z.at? path = some y) : ∃ i, v.at? (i :: path) = some y := by
  obtain ⟨i, hi⟩ := List.getElem?_of_mem hz
  refine ⟨i, ?_⟩
  rw [at?, hi]
  exact hy

/-- Whatever lies in a value is the value or lies in a part of it. -/
theorem Value.at?_cons {v y : Value} {i : Nat} {path : List Nat} (hy : v.at? (i :: path) = some y) :
    ∃ z ∈ v.content.parts, z.at? path = some y := by
  rw [at?] at hy
  obtain ⟨z, hz, hy⟩ := Option.bind_eq_some_iff.mp hy
  exact ⟨z, List.mem_of_getElem? hz, hy⟩

/-- What holds of all that lies in a value holds of the value and of all that lies in its parts. -/
theorem Value.forall_at {P : Value → Prop} {v : Value} :
    (∀ path y, v.at? path = some y → P y) ↔
      P v ∧ ∀ z ∈ v.content.parts, ∀ path y, z.at? path = some y → P y := by
  constructor
  · refine fun h => ⟨h [] v rfl, fun z hz path y hy => ?_⟩
    obtain ⟨i, hi⟩ := at?_of_part hz hy
    exact h (i :: path) y hi
  · rintro ⟨hv, hparts⟩ path y hy
    cases path with
    | nil =>
      cases hy
      exact hv
    | cons i path =>
      obtain ⟨z, hz, hy⟩ := at?_cons hy
      exact hparts z hz path y hy

/-- The same for what depends on the nesting that is left below each place. -/
theorem Value.forall_below {P : Nat → Value → Prop} {depth : Nat} {v : Value} :
    (∀ path y below, v.at? path = some y → depth + 1 = path.length + (below + 1) → P below y) ↔
      P depth v ∧ ∀ z ∈ v.content.parts, ∀ path y below, z.at? path = some y →
        depth = path.length + (below + 1) → P below y := by
  constructor
  · refine fun h => ⟨h [] v depth rfl (Nat.zero_add _).symm, fun z hz path y below hy hdepth => ?_⟩
    obtain ⟨i, hi⟩ := at?_of_part hz hy
    refine h (i :: path) y below hi ?_
    rw [List.length_cons]
    omega
  · rintro ⟨hv, hparts⟩ path y below hy hdepth
    cases path with
    | nil =>
      cases hy
      obtain rfl : depth = below := by simpa using hdepth
      exact hv
    | cons i path =>
      obtain ⟨z, hz, hy⟩ := at?_cons hy
      rw [List.length_cons] at hdepth
      exact hparts z hz path y below hy (by omega)

/-! ## 2. Items and fields by number -/

/-- The items `xs` stand in a collection from number `n` on: what stands in front of them, the head
    of the collection included, and what stands behind them. -/
inductive Stretch (m : Major) (n : Nat) (xs : List Bytes) : Bytes → Bytes → Prop where
  | mk {h : Head} {front tail : Bytes} {before behind : List Bytes} (hh : h.Spelled front)
      (hn : before.length = n)
      (hu : Gathers m (before ++ (xs ++ behind))
        (front ++ (before.flatten ++ (xs.flatten ++ (behind.flatten ++ tail))))) :
      Stretch m n xs (front ++ before.flatten) (behind.flatten ++ tail)

/-- **The items of a collection stand in it one behind the other.** -/
theorem Gathers.stretch {m : Major} {before xs behind : List Bytes} {u : Bytes}
    (h : Gathers m (before ++ (xs ++ behind)) u) :
    ∃ pre post, u = pre ++ (xs.flatten ++ post) ∧ Stretch m before.length xs pre post := by
  generalize hys : before ++ (xs ++ behind) = ys at h
  cases h with
  | mk hh hm hw hk hb hx =>
    rename_i head w k front body
    obtain ⟨tail, rfl⟩ := hb.behind
    have hu : front ++ (ys.flatten ++ tail) =
        front ++ (before.flatten ++ (xs.flatten ++ (behind.flatten ++ tail))) := by
      simp only [← hys, List.flatten_append, List.append_assoc]
    have hgathers : Gathers m ys (front ++ (ys.flatten ++ tail)) := .mk hh hm hw hk hb hx
    rw [hu, ← hys] at hgathers
    exact ⟨_, _, by rw [hu, List.append_assoc], .mk hh rfl hgathers⟩

/-- The parts in the slots of fields, in order, each with its field and the place of the field among
    all of them. A literal has a place, and no slot. -/
def fieldParts (fields : List Field) (slots : List (Option Value)) : List (Value × Field × Nat) :=
  ((fields.zipIdx.filter fun p => !p.1.isLiteral).zip slots).filterMap fun e =>
    e.2.map fun z => (z, e.1)

/-! ## 3. Parts that were read -/

/-- The entry of a number in a value, in the bytes of a map: in its place, or in a map that is put
    in order wherever its key and its value are read side by side. -/
inductive EntryPlace (P : Value → Bytes → Prop) (v : Value) (i : Nat)
    (k x pre post : Bytes) : Prop where
  | mk {es : List (Value × Value)} {key value : Value} {n : Nat} (hc : v.content = .entries es)
      (he : es[i]? = some (key, value)) (hk : P key k) (hx : P value x)
      (hn : n = i ∨ ∃ kt vt, v.type = .map kt vt) (hu : Stretch .map (n * 2) [k, x] pre post) :
      EntryPlace P v i k x pre post

/-- The place of the part of a number in the bytes of a value that was read, behind the lead of its
    shape. -/
inductive Shape.ReadPlace (s : Shape) (P : Value → Bytes → Prop) (v : Value) :
    Nat → Bytes → Bytes → Bytes → Prop where
  /-- The element of that number. -/
  | item {item : TypeExpr} {i : Nat} {x pre post : Bytes} (hl : s.layout = some (.items item))
      (hu : Stretch .array i [x] pre post) : ReadPlace s P v i pre x post
  /-- The element in the place of the field. -/
  | field {fields : List Field} {slots : List (Option Value)} {i j : Nat} {z : Value} {f : Field}
      {x pre post : Bytes} (hm : s.kind ≠ .map) (hl : s.layout = some (.fields fields))
      (hc : v.content = .fields slots) (hz : (fieldParts fields slots)[i]? = some (z, f, j))
      (hu : Stretch .array j [x] pre post) : ReadPlace s P v i pre x post
  /-- What stands directly behind the key of the field. -/
  | keyed {fields : List Field} {slots : List (Option Value)} {i j n : Nat} {z : Value} {f : Field}
      {k x pre post : Bytes} (hm : s.kind = .map) (hl : s.layout = some (.fields fields))
      (hc : v.content = .fields slots) (hz : (fieldParts fields slots)[i]? = some (z, f, j))
      (hk : KeyAt (.widest k.length) (.field f.key) k) (hu : Stretch .map (n * 2) [k, x] pre post) :
      ReadPlace s P v i (pre ++ k) x post
  | key {key value : TypeExpr} {i : Nat} {k x pre post : Bytes}
      (hl : s.layout = some (.entries key value)) (he : EntryPlace P v i k x pre post) :
      ReadPlace s P v (i * 2) pre k (x ++ post)
  | value {key value : TypeExpr} {i : Nat} {k x pre post : Bytes}
      (hl : s.layout = some (.entries key value)) (he : EntryPlace P v i k x pre post) :
      ReadPlace s P v (i * 2 + 1) (pre ++ k) x post
  | variant {x : Bytes} (hm : s.kind = .union) : ReadPlace s P v 0 [] x []

/-! ## 4. Parts that were written -/

/-- Values one behind the other, each in a cell. -/
inductive PartCells (P : Value → Bytes → Prop) : List Value → List (Cell Value) → Prop where
  | nil : PartCells P [] []
  | cons {z : Value} {zs : List Value} {x : Bytes} {cells : List (Cell Value)} (hx : P z x)
      (hs : PartCells P zs cells) : PartCells P (z :: zs) (⟨some z, x⟩ :: cells)

/-- The elements of a tuple, field by field. An absent part is null, and at the end nothing at
    all. -/
inductive TupleCells (P : Value → Bytes → Prop) :
    List Field → List (Option Value) → List (Cell Value) → Prop where
  | literal {f : Field} {l : Literal} {fs : List Field} {slots : List (Option Value)}
      {cells : List (Cell Value)} (hf : f.body = .literal l) (hs : TupleCells P fs slots cells) :
      TupleCells P (f :: fs) slots (⟨none, l.bytes⟩ :: cells)
  | part {f : Field} {fs : List Field} {z : Value} {slots : List (Option Value)} {x : Bytes}
      {cells : List (Cell Value)} (hf : f.isLiteral = false) (hx : P z x)
      (hs : TupleCells P fs slots cells) :
      TupleCells P (f :: fs) (some z :: slots) (⟨some z, x⟩ :: cells)
  | null {f : Field} {fs : List Field} {slots : List (Option Value)} {cells : List (Cell Value)}
      (hf : f.presence = .nullable) (hs : TupleCells P fs slots cells) :
      TupleCells P (f :: fs) (none :: slots) (⟨none, nullBytes⟩ :: cells)
  | rest {fs : List Field} {slots : List (Option Value)} (hf : ∀ f ∈ fs, f.presence = .optional)
      (hs : ∀ slot ∈ slots, slot = none) : TupleCells P fs slots []

/-- The entries of a map with fields, in the order of the fields: each key, and what stands under
    it. -/
inductive KeyedCells (P : Value → Bytes → Prop) :
    List Field → List (Option Value) → List (Cell Value) → Prop where
  | nil : KeyedCells P [] [] []
  | literal {f : Field} {l : Literal} {fs : List Field} {slots : List (Option Value)}
      {cells : List (Cell Value)} (hf : f.body = .literal l) (hs : KeyedCells P fs slots cells) :
      KeyedCells P (f :: fs) slots (⟨none, f.key.bytes⟩ :: ⟨none, l.bytes⟩ :: cells)
  | part {f : Field} {fs : List Field} {z : Value} {slots : List (Option Value)} {x : Bytes}
      {cells : List (Cell Value)} (hf : f.isLiteral = false) (hx : P z x)
      (hs : KeyedCells P fs slots cells) :
      KeyedCells P (f :: fs) (some z :: slots) (⟨none, f.key.bytes⟩ :: ⟨some z, x⟩ :: cells)
  | absent {f : Field} {fs : List Field} {slots : List (Option Value)} {cells : List (Cell Value)}
      (hf : f.presence = .optional) (hs : KeyedCells P fs slots cells) :
      KeyedCells P (f :: fs) (none :: slots) cells

/-- What is written for a content between the head of a collection and its end. -/
inductive Shape.LaysOut (s : Shape) (P : Value → Bytes → Prop) :
    Content Value → List (Cell Value) → Prop where
  | items {item : TypeExpr} {vs : List Value} {cells : List (Cell Value)}
      (hl : s.layout = some (.items item)) (h : PartCells P vs cells) :
      LaysOut s P (.items vs) cells
  | entries {key value : TypeExpr} {es : List (Value × Value)} {cells : List (Cell Value)}
      (hl : s.layout = some (.entries key value))
      (h : PartCells P (es.flatMap fun e => [e.1, e.2]) cells) : LaysOut s P (.entries es) cells
  | tuple {fields : List Field} {slots : List (Option Value)} {cells : List (Cell Value)}
      (hm : s.kind ≠ .map) (hl : s.layout = some (.fields fields))
      (h : TupleCells P fields slots cells) : LaysOut s P (.fields slots) cells
  | keyed {fields : List Field} {slots : List (Option Value)} {cells : List (Cell Value)}
      (hm : s.kind = .map) (hl : s.layout = some (.fields fields))
      (h : KeyedCells P fields slots cells) : LaysOut s P (.fields slots) cells

/-- The place of the part of a number in the bytes that are written for a value, behind the lead of
    its shape: there are as many parts in front of it. -/
inductive Shape.WrittenPlace (s : Shape) (P : Value → Bytes → Prop) (v : Value) :
    Nat → Bytes → Bytes → Bytes → Prop where
  | collection {h : Head} {front tail x : Bytes} {z : Value} {before behind : List (Cell Value)}
      (hh : h.Spelled front) (hm : h.major = if s.kind = .map then .map else .array)
      (ht : tail = if h.isIndefinite then [breakByte] else [])
      (hc : s.LaysOut P v.content (before ++ ⟨some z, x⟩ :: behind)) :
      WrittenPlace s P v (Cells.parts before).length (front ++ Cells.bytes before) x
        (Cells.bytes behind ++ tail)
  | variant {x : Bytes} (hm : s.kind = .union) : WrittenPlace s P v 0 [] x []

/-! ## 5. Places -/

/-- How values stand in bytes: what the item of a value is, with some nesting left, and where the
    item of the part of a number stands behind the lead, with the nesting that is left below. -/
structure Manner where
  item : Nat → Value → Bytes → Prop
  part : Nat → Shape → Value → Nat → Bytes → Bytes → Bytes → Prop

/-- The place of the value at a path in the bytes of a value: its bytes, and what stands before and
    behind them. At each step the lead of the shape is followed by what the part stands in. -/
inductive Lies (c : Catalog) (M : Manner) :
    Nat → Value → Bytes → List Nat → Value → Bytes → Bytes → Bytes → Prop where
  | here {n : Nat} {v : Value} {b : Bytes} (h : M.item n v b) : Lies c M n v b [] v [] b []
  | inside {n i : Nat} {v z y : Value} {s : Shape} {tagged : Bool}
      {lead before x behind pre u post : Bytes} {path : List Nat}
      (h : M.item (n + 1) v (lead ++ (before ++ (x ++ behind)))) (hs : c.resolve v.type = .ok s)
      (hlead : s.Lead tagged lead) (hz : v.content.parts[i]? = some z)
      (hx : M.part n s v i before x behind) (hl : Lies c M n z x path y pre u post) :
      Lies c M (n + 1) v (lead ++ (before ++ (x ++ behind))) (i :: path) y
        (lead ++ (before ++ pre)) u (post ++ behind)

namespace Lies

variable {c : Catalog} {M : Manner} {n : Nat} {v y : Value} {b pre u post : Bytes} {path : List Nat}

/-- The bytes are those before the place, those of the place and those behind it. -/
theorem eq_append (h : Lies c M n v b path y pre u post) : b = pre ++ (u ++ post) := by
  induction h with
  | here h => simp
  | inside h hs hlead hz hx hl ih =>
    rw [ih]
    simp only [List.append_assoc]

theorem at? (h : Lies c M n v b path y pre u post) : v.at? path = some y := by
  induction h with
  | here h => rfl
  | inside h hs hlead hz hx hl ih =>
    rw [Value.at?, hz]
    exact ih

/-- At the place stands the item of the value there, with the nesting that is left. -/
theorem holds (h : Lies c M n v b path y pre u post) : ∃ m, n = path.length + m ∧ M.item m y u := by
  induction h with
  | here h => exact ⟨_, (Nat.zero_add _).symm, h⟩
  | inside h hs hlead hz hx hl ih =>
    obtain ⟨m, rfl, hm⟩ := ih
    exact ⟨m, by rw [List.length_cons, Nat.add_right_comm], hm⟩

/-- **A place further down is a place in a place.** -/
theorem split {p q : List Nat} (h : Lies c M n v b (p ++ q) y pre u post) :
    ∃ m z w pre₁ post₁ pre₂ post₂, n = p.length + m ∧ Lies c M n v b p z pre₁ w post₁ ∧
      Lies c M m z w q y pre₂ u post₂ := by
  induction p generalizing n v b pre post with
  | nil =>
    have hhere : M.item n v b := by
      cases h with
      | here h => exact h
      | inside h _ _ _ _ _ => exact h
    exact ⟨n, v, b, [], [], pre, post, (Nat.zero_add n).symm, .here hhere, h⟩
  | cons i p ih =>
    cases h with
    | inside h hs hlead hz hx hl =>
      obtain ⟨m, z, w, pre₁, post₁, pre₂, post₂, rfl, h₁, h₂⟩ := ih hl
      refine ⟨m, z, w, _, _, pre₂, post₂, ?_, .inside h hs hlead hz hx h₁, h₂⟩
      rw [List.length_cons, Nat.add_right_comm]

end Lies

end CborSchema
