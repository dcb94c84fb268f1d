import CborSchema.Proofs.Roundtrip.Scalars

/-!
# Cutting by offsets

The pieces of a string are cut from its units, bytes or characters (`Encode/Chunk.lean`). A cutter
that only sees the bytes moves an offset instead: a chunk ends a size further on, and in a text this
end moves back over the bytes that go on with a character, or forward where a character alone is
longer than the size. Offsets are machine words, so their sums may overflow, and the end of a slice
may lie before its start.

* `splitChunks` -- this cutter; it has no answer where a sum overflows, a slice is not in the
  payload or its turns run out;
* `CutUnit` -- what a payload is cut between: single bytes, or the bytes of one character;
* `fill_fits`, `fill_next`, `fill_rest` -- a piece takes the units that fit, and no unit more would
  fit;
* `chunkEnd_eq`, `splitFrom_eq` -- one chunk of the cutter is one piece, so all its chunks are the
  pieces;
* `splitChunks_bytes`, `splitChunks_text` -- **the cutter ends without overflow, with the chunks
  that are written**;
* `mem_chunks`, `mem_byteChunks`, `mem_textChunks` -- no chunk is empty, and none is longer than the
  size unless it is one character.
-/

namespace CborSchema

/-! ## 1. A cutter of bytes -/

/-- The sum of two machine words, if it is one. -/
def wordSum? (a b : Nat) : Option Nat := if a + b < UInt64.size then some (a + b) else none

/-- Whether a byte goes on with a character. -/
def isContinuation (b : UInt8) : Bool := b &&& 0xc0 == 0x80

/-- Whether there is a byte at an offset that goes on with a character. -/
def continuesAt (payload : Bytes) (k : Nat) : Bool := payload[k]?.any isContinuation

/-- An end moved back over bytes that go on with a character, at most to the start of the chunk. -/
def retreat (payload : Bytes) (start : Nat) : Nat → Nat
  | 0 => 0
  | k + 1 => if start < k + 1 ∧ continuesAt payload (k + 1) then retreat payload start k else k + 1

/-- An end moved forward over bytes that go on with a character. -/
def advance (payload : Bytes) : Nat → Nat → Option Nat
  | 0, _ => none
  | turns + 1, k =>
    if continuesAt payload k then do
      let next ← wordSum? k 1
      advance payload turns next
    else some k

/-- The end of the chunk from an offset on. -/
def chunkEnd (payload : Bytes) (size : Nat) (text : Bool) (start : Nat) : Option Nat := do
  let most ← wordSum? start size
  let stop := min most payload.length
  if text then
    let stop := retreat payload start stop
    if stop = start then do
      let next ← wordSum? start 1
      advance payload (payload.length + 1) next
    else some stop
  else some stop

/-- The bytes between two offsets, if these are in order and in the payload. -/
def slice? (payload : Bytes) (start stop : Nat) : Option Bytes :=
  if start ≤ stop ∧ stop ≤ payload.length then some ((payload.drop start).take (stop - start))
  else none

/-- The chunks from an offset on, at most one in each turn. -/
def splitFrom (payload : Bytes) (size : Nat) (text : Bool) : Nat → Nat → Option (List Bytes)
  | 0, start => if start < payload.length then none else some []
  | turns + 1, start =>
    if start < payload.length then do
      let stop ← chunkEnd payload size text start
      let chunk ← slice? payload start stop
      let chunks ← splitFrom payload size text turns stop
      some (chunk :: chunks)
    else some []

/-- The chunks of a payload; there are no more of them than bytes. -/
def splitChunks (payload : Bytes) (size : Nat) (text : Bool) : Option (List Bytes) :=
  splitFrom payload size text payload.length 0

theorem wordSum?_eq {a b : Nat} (h : a + b < UInt64.size) : wordSum? a b = some (a + b) := if_pos h

/-- **An end moves back to the last place where no character goes on.** -/
theorem retreat_eq {payload : Bytes} {start stop k : Nat} (hstart : start ≤ stop) (hk : stop ≤ k)
    (hinside : ∀ j, stop < j → j ≤ k → continuesAt payload j = true)
    (hstop : stop = start ∨ continuesAt payload stop = false) : retreat payload start k = stop := by
  induction k with
  | zero => exact (Nat.le_zero.mp hk).symm
  | succ k ih =>
    rw [retreat]
    rcases Nat.lt_or_ge stop (k + 1) with hlt | hge
    · rw [if_pos ⟨by omega, hinside _ hlt (Nat.le_refl _)⟩]
      exact ih (by omega) fun j hj hjk => hinside j hj (by omega)
    · obtain rfl : stop = k + 1 := by omega
      rw [if_neg]
      rintro ⟨hlt, hcontinues⟩
      rcases hstop with heq | hno
      · omega
      · rw [hno] at hcontinues
        cases hcontinues

/-- **An end moves forward to the next place where no character goes on.** -/
theorem advance_eq {payload : Bytes} {turns k stop : Nat} (hk : k ≤ stop)
    (hinside : ∀ j, k ≤ j → j < stop → continuesAt payload j = true)
    (hstop : continuesAt payload stop = false) (hturns : stop < k + turns)
    (hword : stop < UInt64.size) : advance payload turns k = some stop := by
  induction turns generalizing k with
  | zero => omega
  | succ turns ih =>
    rw [advance]
    rcases Nat.lt_or_ge k stop with hlt | hge
    · rw [if_pos (hinside k (Nat.le_refl _) hlt), wordSum?_eq (by omega)]
      exact ih (by omega) (fun j hj => hinside j (by omega)) (by omega)
    · obtain rfl : k = stop := by omega
      rw [if_neg (by rw [hstop]; exact Bool.false_ne_true)]

/-! ## 2. Units -/

/-- What a payload is cut between: a single byte, or in a text the bytes of one character, of which
    only the first does not go on with one. -/
inductive CutUnit : Bool → Bytes → Prop where
  | byte (b : UInt8) : CutUnit false [b]
  | char {b : UInt8} {tail : Bytes} (hb : isContinuation b = false)
      (htail : ∀ x ∈ tail, isContinuation x = true) : CutUnit true (b :: tail)

theorem CutUnit.length_pos {text : Bool} {u : Bytes} (h : CutUnit text u) : 0 < u.length := by
  cases h <;> exact Nat.succ_pos _

/-- There are no more units than bytes. -/
theorem length_le_flatten {text : Bool} {units : List Bytes}
    (hunits : ∀ x ∈ units, CutUnit text x) : units.length ≤ units.flatten.length := by
  induction units with
  | nil => exact Nat.le_refl 0
  | cons u us ih =>
    obtain ⟨hu, hus⟩ := List.forall_mem_cons.mp hunits
    have hpos := hu.length_pos
    have hrest := ih hus
    rw [List.flatten_cons, List.length_append, List.length_cons]
    omega

theorem continuesAt_append (before after : Bytes) (j : Nat) :
    continuesAt (before ++ after) (before.length + j) = continuesAt after j := by
  rw [continuesAt, continuesAt, List.getElem?_append_right (Nat.le_add_right _ _),
    Nat.add_sub_cancel_left]

/-- Inside a character a character goes on. -/
theorem continuesAt_inside {u : Bytes} (hu : CutUnit true u) (after : Bytes) {j : Nat} (hj : 0 < j)
    (hlt : j < u.length) : continuesAt (u ++ after) j = true := by
  cases hu with
  | char hb htail =>
    obtain ⟨i, rfl⟩ := Nat.exists_eq_add_one.mpr hj
    rename_i b tail
    have hi : i < tail.length := by simpa using hlt
    rw [continuesAt, List.getElem?_append_left hlt, List.getElem?_cons_succ,
      List.getElem?_eq_getElem hi]
    exact htail _ (List.getElem_mem hi)

/-- Between characters none goes on. -/
theorem continuesAt_between {units : List Bytes} (hunits : ∀ u ∈ units, CutUnit true u) :
    continuesAt units.flatten 0 = false := by
  cases units with
  | nil => rfl
  | cons u units =>
    cases hunits u List.mem_cons_self with
    | char hb htail => simpa [continuesAt] using hb

/-! ## 3. Pieces -/

section fill

variable {α β : Type} {weight : α → Nat} {size room : Nat} {as : List α}

/-- What a piece takes fits the room that it has. -/
theorem fill_fits (weight : α → Nat) (size room : Nat) (as : List α) :
    ((fill weight size room as).1.map weight).sum ≤ room := by
  induction as generalizing room with
  | nil => exact Nat.zero_le _
  | cons a as ih =>
    rw [fill]
    split
    · rename_i hfits
      have hrest := ih (room - weight a)
      simp only [List.map_cons, List.sum_cons]
      omega
    · exact Nat.zero_le _

/-- **No unit more would fit.** -/
theorem fill_next {b : α} {rest : List α} (h : (fill weight size room as).2.flatten = b :: rest) :
    room < ((fill weight size room as).1.map weight).sum + weight b := by
  induction as generalizing room with
  | nil => cases h
  | cons a as ih =>
    rw [fill] at h ⊢
    split at h
    · rename_i hfits
      rw [if_pos hfits]
      have hrest := ih h
      simp only [List.map_cons, List.sum_cons]
      omega
    · rename_i hfits
      rw [if_neg hfits]
      obtain rfl : a = b := by simpa using congrArg List.head? h
      simpa using hfits

/-- **Behind a piece the cutting starts anew.** -/
theorem fill_rest (weight : α → Nat) (size room : Nat) (as : List α) :
    (fill weight size room as).2 = chunks weight size (fill weight size room as).2.flatten := by
  induction as generalizing room with
  | nil => rfl
  | cons a as ih =>
    rw [fill]
    split
    · exact ih _
    · have hall := fill_flatten weight size (size - weight a) as
      show _ = chunks weight size (a :: (fill weight size (size - weight a) as).1 ++ _)
      rw [List.cons_append, hall, chunks]

/-- A heavy unit stands alone, and other pieces fit the size. -/
def LightOrAlone (weight : α → Nat) (size : Nat) (piece : List α) : Prop :=
  piece ≠ [] ∧ ((piece.map weight).sum ≤ size ∨ ∃ a, piece = [a])

theorem lightOrAlone_cons (hweight : ∀ a, 0 < weight a) (a : α) (as : List α) :
    LightOrAlone weight size (a :: (fill weight size (size - weight a) as).1) := by
  refine ⟨List.cons_ne_nil _ _, ?_⟩
  have hfits := fill_fits weight size (size - weight a) as
  rw [List.map_cons, List.sum_cons]
  rcases Nat.lt_or_ge size (weight a) with hheavy | hlight
  · right
    refine ⟨a, ?_⟩
    cases hpiece : (fill weight size (size - weight a) as).1 with
    | nil => rfl
    | cons b bs =>
      have hb := hweight b
      rw [hpiece, List.map_cons, List.sum_cons] at hfits
      omega
  · left
    omega

/-- **No piece is empty, and none but a single unit is too heavy.** -/
theorem mem_chunks (hweight : ∀ a, 0 < weight a) {piece : List α}
    (h : piece ∈ chunks weight size as) : LightOrAlone weight size piece := by
  have hfill : ∀ (as : List α) (room : Nat), ∀ piece ∈ (fill weight size room as).2,
      LightOrAlone weight size piece := by
    intro as
    induction as with
    | nil =>
      intro room piece h
      cases h
    | cons a as ih =>
      intro room piece h
      rw [fill] at h
      split at h
      · exact ih _ piece h
      · rcases List.mem_cons.mp h with rfl | h
        · exact lightOrAlone_cons hweight a as
        · exact ih _ piece h
  cases as with
  | nil => cases h
  | cons a as =>
    rw [chunks] at h
    rcases List.mem_cons.mp h with rfl | h
    · exact lightOrAlone_cons hweight a as
    · exact hfill _ _ piece h

/-- Units that keep their weight are cut alike. -/
theorem chunks_map {weight' : β → Nat} (f : α → β) (hf : ∀ a, weight' (f a) = weight a)
    (size : Nat) (as : List α) :
    chunks weight' size (as.map f) = (chunks weight size as).map (List.map f) := by
  have hfill : ∀ (as : List α) (room : Nat), fill weight' size room (as.map f) =
      ((fill weight size room as).1.map f, (fill weight size room as).2.map (List.map f)) := by
    intro as
    induction as with
    | nil => intro room; rfl
    | cons a as ih =>
      intro room
      rw [List.map_cons, fill, fill, hf, ih, ih]
      split
      · rfl
      · rfl
  cases as with
  | nil => rfl
  | cons a as =>
    rw [List.map_cons, chunks, chunks, hf, hfill]
    rfl

end fill

/-! ## 4. The cutter cuts pieces -/

section split

variable {text : Bool} {size : Nat} {payload before : Bytes} {u : Bytes} {us : List Bytes}

/-- The piece that starts with a unit, and the units behind it. -/
def pieceOf (size : Nat) (u : Bytes) (us : List Bytes) : Bytes :=
  (u :: (fill List.length size (size - u.length) us).1).flatten

/-- The units behind the piece that starts with a unit. -/
def behindPiece (size : Nat) (u : Bytes) (us : List Bytes) : List Bytes :=
  (fill List.length size (size - u.length) us).2.flatten

theorem pieceOf_append (size : Nat) (u : Bytes) (us : List Bytes) :
    pieceOf size u us ++ (behindPiece size u us).flatten = (u :: us).flatten := by
  have hall := fill_flatten List.length size (size - u.length) us
  rw [pieceOf, behindPiece, ← List.flatten_append, List.cons_append, hall]

theorem mem_behindPiece {x : Bytes} (h : x ∈ behindPiece size u us) : x ∈ us := by
  rw [← fill_flatten List.length size (size - u.length) us]
  exact List.mem_append_right _ h

theorem length_behindPiece (size : Nat) (u : Bytes) (us : List Bytes) :
    (behindPiece size u us).length ≤ us.length := by
  have hall := congrArg List.length (fill_flatten List.length size (size - u.length) us)
  rw [List.length_append] at hall
  rw [behindPiece]
  omega

theorem chunks_cons (size : Nat) (u : Bytes) (us : List Bytes) :
    (chunks List.length size (u :: us)).map List.flatten =
      pieceOf size u us :: (chunks List.length size (behindPiece size u us)).map List.flatten := by
  rw [behindPiece, ← fill_rest, chunks]
  rfl

/-- **A unit that is not too long leads a piece within the size, which the next unit would exceed;
    one that is too long is a piece of its own.** -/
theorem pieceOf_length (size : Nat) (u : Bytes) (hus : ∀ x ∈ us, CutUnit text x) :
    (u.length ≤ size → u.length ≤ (pieceOf size u us).length ∧ (pieceOf size u us).length ≤ size ∧
      ∀ b rest, behindPiece size u us = b :: rest → size < (pieceOf size u us).length + b.length) ∧
    (size < u.length → pieceOf size u us = u) := by
  have hfits := fill_fits List.length size (size - u.length) us
  have hlength : (pieceOf size u us).length =
      u.length + ((fill List.length size (size - u.length) us).1.map List.length).sum := by
    rw [pieceOf, List.flatten_cons, List.length_append, List.length_flatten]
  refine ⟨fun hle => ⟨by omega, by omega, fun b rest hnext => ?_⟩, fun hlt => ?_⟩
  · have hmore := fill_next hnext
    omega
  · cases hpiece : (fill List.length size (size - u.length) us).1 with
    | nil => simp [pieceOf, hpiece]
    | cons x xs =>
      have hx : x ∈ us := by
        rw [← fill_flatten List.length size (size - u.length) us, hpiece]
        exact List.mem_append_left _ List.mem_cons_self
      have hpos := (hus x hx).length_pos
      rw [hpiece, List.map_cons, List.sum_cons] at hfits
      omega

section chunkEnd

variable {rest : Bytes} {behind : List Bytes} {piece : Bytes}

/-- The end of a piece of single bytes: a piece that is shorter than the size is the last one. -/
theorem min_piece (hpayload : payload = before ++ piece ++ behind.flatten)
    (hbehind : ∀ x ∈ behind, CutUnit false x) (hpiece : piece.length ≤ size)
    (hnext : ∀ b rest, behind = b :: rest → size < piece.length + b.length) :
    min (before.length + size) payload.length = before.length + piece.length := by
  have htotal : payload.length = before.length + piece.length + behind.flatten.length := by
    rw [hpayload, List.length_append, List.length_append]
  cases behind with
  | nil =>
    rw [List.flatten_nil, List.length_nil] at htotal
    omega
  | cons b rest =>
    have hcut := hnext b rest rfl
    have hb : b.length = 1 := by
      cases hbehind b List.mem_cons_self
      rfl
    omega

/-- The end of a light piece of a text: the size may cut the next character, and no further one. -/
theorem retreat_piece (hpayload : payload = before ++ piece ++ behind.flatten)
    (hbehind : ∀ x ∈ behind, CutUnit true x) (hpiece : piece.length ≤ size)
    (hnext : ∀ b rest, behind = b :: rest → size < piece.length + b.length) :
    retreat payload before.length (min (before.length + size) payload.length) =
      before.length + piece.length := by
  have hlength : (before ++ piece).length = before.length + piece.length := List.length_append
  have htotal : payload.length = before.length + piece.length + behind.flatten.length := by
    rw [hpayload, List.length_append, hlength]
  refine retreat_eq (by omega) (by omega) (fun j hj hjk => ?_) (.inr ?_)
  · obtain ⟨i, rfl⟩ := Nat.exists_eq_add_of_le (Nat.le_of_lt hj)
    rw [hpayload, ← hlength, continuesAt_append]
    cases behind with
    | nil =>
      rw [List.flatten_nil, List.length_nil] at htotal
      omega
    | cons b rest =>
      have hcut := hnext b rest rfl
      rw [List.flatten_cons]
      exact continuesAt_inside (hbehind b List.mem_cons_self) _ (by omega) (by omega)
  · have hstart := continuesAt_append (before ++ piece) behind.flatten 0
    rw [Nat.add_zero, hlength, ← hpayload] at hstart
    rw [hstart]
    exact continuesAt_between hbehind

/-- The end of a character that is longer than the size. -/
theorem advance_piece (hpayload : payload = before ++ piece ++ behind.flatten)
    (hpiece : CutUnit true piece) (hbehind : ∀ x ∈ behind, CutUnit true x)
    (hlen : payload.length < 2 ^ 63) (hlong : size < piece.length) :
    retreat payload before.length (min (before.length + size) payload.length) = before.length ∧
      advance payload (payload.length + 1) (before.length + 1) =
        some (before.length + piece.length) := by
  have hlength : (before ++ piece).length = before.length + piece.length := List.length_append
  have htotal : payload.length = before.length + piece.length + behind.flatten.length := by
    rw [hpayload, List.length_append, hlength]
  have hword : UInt64.size = 2 ^ 64 := rfl
  have hinside : ∀ j, before.length < j → j < before.length + piece.length →
      continuesAt payload j = true := by
    intro j hj hlt
    obtain ⟨i, rfl⟩ := Nat.exists_eq_add_of_le (Nat.le_of_lt hj)
    rw [hpayload, List.append_assoc, continuesAt_append]
    exact continuesAt_inside hpiece _ (by omega) (by omega)
  have hstop : continuesAt payload (before.length + piece.length) = false := by
    have hstart := continuesAt_append (before ++ piece) behind.flatten 0
    rw [Nat.add_zero, hlength, ← hpayload] at hstart
    rw [hstart]
    exact continuesAt_between hbehind
  refine ⟨retreat_eq (Nat.le_refl _) (by omega) (fun j hj hjk => hinside j hj (by omega))
    (.inl rfl), ?_⟩
  exact advance_eq (by omega) (fun j hj hlt => hinside j hj hlt) hstop (by omega) (by omega)

end chunkEnd

/-- **One chunk of the cutter is one piece.** -/
theorem chunkEnd_eq (hsize : 1 ≤ size) (hunits : ∀ x ∈ u :: us, CutUnit text x)
    (hpayload : payload = before ++ (u :: us).flatten) (hlen : payload.length < 2 ^ 63)
    (hsum : before.length + size < UInt64.size) :
    chunkEnd payload size text before.length =
      some (before.length + (pieceOf size u us).length) := by
  obtain ⟨hu, hus⟩ := List.forall_mem_cons.mp hunits
  obtain ⟨hlight, hheavy⟩ := pieceOf_length size u hus
  have hbehind : ∀ x ∈ behindPiece size u us, CutUnit text x :=
    fun x hx => hus x (mem_behindPiece hx)
  have hpos := hu.length_pos
  rw [← pieceOf_append size u us, ← List.append_assoc] at hpayload
  rw [chunkEnd, wordSum?_eq hsum]
  cases text with
  | false =>
    -- single bytes are all light
    have hone : u.length = 1 := by
      cases hu
      rfl
    obtain ⟨-, hfits, hnext⟩ := hlight (by omega)
    exact congrArg some (min_piece hpayload hbehind hfits hnext)
  | true =>
    show (if retreat payload before.length (min (before.length + size) payload.length) =
      before.length
      then (wordSum? before.length 1 >>= advance payload (payload.length + 1))
      else some (retreat payload before.length (min (before.length + size) payload.length))) = _
    rcases Nat.lt_or_ge size u.length with hlong | hle
    · have hword : UInt64.size = 2 ^ 64 := rfl
      have hbefore : before.length ≤ payload.length := by
        rw [hpayload, List.length_append, List.length_append]
        omega
      rw [hheavy hlong] at hpayload ⊢
      obtain ⟨hback, hforward⟩ := advance_piece hpayload hu hbehind hlen hlong
      rw [if_pos hback, wordSum?_eq (by omega)]
      exact hforward
    · obtain ⟨hleast, hfits, hnext⟩ := hlight hle
      rw [retreat_piece hpayload hbehind hfits hnext, if_neg (by omega)]

/-- Between two offsets lies the piece that starts at the first and ends at the second. -/
theorem slice?_piece (before piece after : Bytes) :
    slice? (before ++ piece ++ after) before.length (before.length + piece.length) =
      some piece := by
  have hto : before.length + piece.length ≤ (before ++ piece ++ after).length := by
    rw [List.length_append, List.length_append]
    exact Nat.le_add_right _ _
  rw [slice?, if_pos ⟨Nat.le_add_right _ _, hto⟩, Nat.add_sub_cancel_left, List.append_assoc,
    List.drop_left, List.take_left]

/-- A piece ends before its payload does only where the size is below the length of this payload. -/
theorem size_lt_of_behind (hus : ∀ x ∈ us, CutUnit text x) (hne : behindPiece size u us ≠ []) :
    size < (u :: us).flatten.length := by
  obtain ⟨hlight, hheavy⟩ := pieceOf_length size u hus
  obtain ⟨b, rest, hrest⟩ := List.exists_cons_of_ne_nil hne
  rw [← pieceOf_append size u us, hrest, List.flatten_cons, List.length_append, List.length_append]
  rcases Nat.lt_or_ge size u.length with hlong | hle
  · rw [hheavy hlong]
    omega
  · have hcut := (hlight hle).2.2 b rest hrest
    omega

/-- **One turn of the cutter**: a piece, and then the chunks from behind it on. -/
theorem splitFrom_succ (hsize : 1 ≤ size) (hlen : payload.length < 2 ^ 63) (turns : Nat)
    (hunits : ∀ x ∈ u :: us, CutUnit text x) (hpayload : payload = before ++ (u :: us).flatten)
    (hsum : before.length + size < UInt64.size) :
    splitFrom payload size text (turns + 1) before.length =
      (splitFrom payload size text turns (before ++ pieceOf size u us).length).map
        (pieceOf size u us :: ·) := by
  have hmore : before.length < payload.length := by
    have hpos := (hunits u List.mem_cons_self).length_pos
    rw [hpayload, List.flatten_cons, List.length_append, List.length_append]
    omega
  have hslice : slice? payload before.length (before.length + (pieceOf size u us).length) =
      some (pieceOf size u us) := by
    rw [hpayload, ← pieceOf_append size u us, ← List.append_assoc]
    exact slice?_piece before _ _
  rw [splitFrom, if_pos hmore, chunkEnd_eq hsize hunits hpayload hlen hsum, List.length_append]
  show (slice? payload before.length _ >>= _) = _
  rw [hslice]
  cases splitFrom payload size text turns (before.length + (pieceOf size u us).length) <;> rfl

/-- **The chunks of the cutter are the pieces**, from every place between two units. Behind the
    first chunk the size is below the length of the payload, so that no sum overflows. -/
theorem splitFrom_eq (hsize : 1 ≤ size) (hlen : payload.length < 2 ^ 63) {turns : Nat}
    {units : List Bytes} (hunits : ∀ x ∈ units, CutUnit text x)
    (hpayload : payload = before ++ units.flatten) (hturns : units.length ≤ turns)
    (hsum : units ≠ [] → before.length + size < UInt64.size) :
    splitFrom payload size text turns before.length =
      some ((chunks List.length size units).map List.flatten) := by
  have hend : ∀ {before : Bytes}, payload = before ++ ([] : List Bytes).flatten →
      ¬ before.length < payload.length := by
    intro before h
    rw [h, List.flatten_nil, List.append_nil]
    exact Nat.lt_irrefl _
  induction turns generalizing units before with
  | zero =>
    obtain rfl := List.length_eq_zero_iff.mp (Nat.le_zero.mp hturns)
    rw [splitFrom, if_neg (hend hpayload)]
    rfl
  | succ turns ih =>
    cases units with
    | nil =>
      rw [splitFrom, if_neg (hend hpayload)]
      rfl
    | cons u us =>
      have hus : ∀ x ∈ us, CutUnit text x := fun x hx => hunits x (List.mem_cons_of_mem _ hx)
      have hbehind : payload =
          (before ++ pieceOf size u us) ++ (behindPiece size u us).flatten := by
        rw [List.append_assoc, pieceOf_append, hpayload]
      have hnext : behindPiece size u us ≠ [] →
          (before ++ pieceOf size u us).length + size < UInt64.size := by
        intro hne
        have hsmall := size_lt_of_behind hus hne
        have hword : UInt64.size = 2 ^ 64 := rfl
        have hwhole := congrArg List.length hpayload
        have hpart := congrArg List.length hbehind
        rw [List.length_append] at hwhole hpart
        omega
      have hrest := ih (fun x hx => hus x (mem_behindPiece hx)) hbehind
        (Nat.le_trans (length_behindPiece size u us) (Nat.le_of_succ_le_succ hturns)) hnext
      rw [splitFrom_succ hsize hlen turns hunits hpayload (hsum (List.cons_ne_nil _ _)), hrest,
        chunks_cons]
      rfl

end split

/-- **The cutter ends without overflow, with the pieces of the units.** -/
theorem splitChunks_eq {text : Bool} {size : Nat} {units : List Bytes} (hsize : 1 ≤ size)
    (hword : size < UInt64.size) (hunits : ∀ x ∈ units, CutUnit text x)
    (hlen : units.flatten.length < 2 ^ 63) : splitChunks units.flatten size text =
      some ((chunks List.length size units).map List.flatten) := by
  have hrun : splitFrom units.flatten size text units.flatten.length ([] : Bytes).length =
      some ((chunks List.length size units).map List.flatten) :=
    splitFrom_eq hsize hlen hunits rfl (length_le_flatten hunits) fun _ => by
      rw [List.length_nil, Nat.zero_add]
      exact hword
  exact hrun

/-! ## 5. Strings -/

theorem not_continuation_of_first {b : UInt8} (h : b.IsUTF8FirstByte) :
    isContinuation b = false := by
  -- all 256 bytes are looked at
  have all : ∀ b : BitVec 8, (⟨b⟩ : UInt8).IsUTF8FirstByte → isContinuation ⟨b⟩ = false := by decide
  exact all b.toBitVec h

/-- **The bytes of a character are a unit of a text.** -/
theorem utf8EncodeChar_unit (c : Char) : CutUnit true (String.utf8EncodeChar c) := by
  have hlow : ∀ n : Nat, isContinuation (UInt8.ofNat (n % 64 + 128)) = true := by
    have all : ∀ k : Fin 64, isContinuation (UInt8.ofNat (k.val + 128)) = true := by decide
    exact fun n => all ⟨n % 64, Nat.mod_lt _ (by decide)⟩
  have htail : ∀ x ∈ (String.utf8EncodeChar c).tail, isContinuation x = true := by
    intro x hx
    unfold String.utf8EncodeChar at hx
    dsimp only at hx
    split_ifs at hx
    · cases hx
    · obtain rfl := List.mem_singleton.mp hx
      exact hlow _
    · rcases List.mem_pair.mp hx with rfl | rfl
      · exact hlow _
      · exact hlow _
    · rcases List.mem_cons.mp hx with rfl | hx
      · exact hlow _
      · rcases List.mem_pair.mp hx with rfl | rfl
        · exact hlow _
        · exact hlow _
  obtain ⟨b, tail, hbytes⟩ := List.exists_cons_of_ne_nil (String.utf8EncodeChar_ne_nil (c := c))
  have hfirst : b.IsUTF8FirstByte := by
    have hpos : 0 < (String.utf8EncodeChar c).length := by simp [hbytes]
    have h : (String.utf8EncodeChar c)[0].IsUTF8FirstByte :=
      UInt8.isUTF8FirstByte_getElem_utf8EncodeChar.mpr rfl
    simpa [hbytes] using h
  rw [hbytes] at htail ⊢
  exact .char (not_continuation_of_first hfirst) htail

theorem textPayload_ofList (cs : List Char) :
    textPayload (String.ofList cs) = (cs.map String.utf8EncodeChar).flatten := by
  rw [textPayload, String.toByteArray_ofList, List.utf8Encode, List.data_toByteArray,
    List.flatMap_def]

theorem flatten_singletons (payload : Bytes) : (payload.map fun b => [b]).flatten = payload := by
  induction payload with
  | nil => rfl
  | cons b payload ih => rw [List.map_cons, List.flatten_cons, ih, List.singleton_append]

theorem byteChunks_eq (size : Nat) (payload : Bytes) : byteChunks size payload =
    (chunks List.length size (payload.map fun b => [b])).map List.flatten := by
  have hsame : List.flatten ∘ List.map (fun b => [b]) = (id : Bytes → Bytes) :=
    funext flatten_singletons
  have hmap : chunks List.length size (payload.map fun b => [b]) =
      (byteChunks size payload).map (List.map fun b => [b]) :=
      chunks_map _ (fun _ => rfl) size payload
  rw [hmap, List.map_map, hsame, List.map_id]

theorem textChunks_eq (size : Nat) (text : String) : textChunks size text =
    (chunks List.length size (text.toList.map String.utf8EncodeChar)).map List.flatten := by
  have hmap : chunks List.length size (text.toList.map String.utf8EncodeChar) =
      (chunks Char.utf8Size size text.toList).map (List.map String.utf8EncodeChar) :=
    chunks_map _ String.length_utf8EncodeChar size text.toList
  rw [hmap, List.map_map, textChunks]
  exact List.map_congr_left fun piece _ => textPayload_ofList piece

section strings

variable {size : Nat}

/-- **The cutter cuts a byte string into the chunks that are written.** -/
theorem splitChunks_bytes (hsize : 1 ≤ size) (hword : size < UInt64.size) {payload : Bytes}
    (hlen : payload.length < 2 ^ 63) :
    splitChunks payload size false = some (byteChunks size payload) := by
  have hunits : ∀ x ∈ payload.map fun b => [b], CutUnit false x := by
    intro x hx
    obtain ⟨b, -, rfl⟩ := List.mem_map.mp hx
    exact .byte b
  have hsplit := splitChunks_eq hsize hword hunits (by rwa [flatten_singletons])
  rwa [flatten_singletons, ← byteChunks_eq] at hsplit

/-- **The cutter cuts a text into the chunks that are written**, though it sees no characters. -/
theorem splitChunks_text (hsize : 1 ≤ size) (hword : size < UInt64.size) {text : String}
    (hlen : (textPayload text).length < 2 ^ 63) :
    splitChunks (textPayload text) size true = some (textChunks size text) := by
  have hpayload : textPayload text = (text.toList.map String.utf8EncodeChar).flatten := by
    rw [← textPayload_ofList, String.ofList_toList]
  have hunits : ∀ x ∈ text.toList.map String.utf8EncodeChar, CutUnit true x := by
    intro x hx
    obtain ⟨c, -, rfl⟩ := List.mem_map.mp hx
    exact utf8EncodeChar_unit c
  rw [hpayload] at hlen ⊢
  rw [splitChunks_eq hsize hword hunits hlen, textChunks_eq]

/-- **No chunk of a byte string is empty or longer than the size.** -/
theorem mem_byteChunks (hsize : 1 ≤ size) {payload chunk : Bytes}
    (h : chunk ∈ byteChunks size payload) : chunk ≠ [] ∧ chunk.length ≤ size := by
  obtain ⟨hne, hlight | ⟨b, rfl⟩⟩ := mem_chunks (fun _ => Nat.one_pos) h
  · exact ⟨hne, by simpa using hlight⟩
  · exact ⟨hne, hsize⟩

/-- **No chunk of a text is empty, and one that is longer than the size is a single character.**
    Each is a text of its own. -/
theorem mem_textChunks {text : String} {chunk : Bytes} (h : chunk ∈ textChunks size text) :
    chunk ≠ [] ∧ ∃ part : String, decodeText chunk = some part ∧
      (chunk.length ≤ size ∨ part.length = 1) := by
  obtain ⟨piece, hpiece, rfl⟩ := List.mem_map.mp h
  obtain ⟨hne, hlight⟩ := mem_chunks (fun c => Char.utf8Size_pos c) hpiece
  have hlength : (textPayload (String.ofList piece)).length = (piece.map Char.utf8Size).sum := by
    rw [textPayload_ofList, List.length_flatten, List.map_map]
    exact congrArg List.sum (List.map_congr_left fun c _ => String.length_utf8EncodeChar c)
  refine ⟨fun hnil => ?_, String.ofList piece, decodeText_textPayload _, ?_⟩
  · obtain ⟨c, cs, rfl⟩ := List.exists_cons_of_ne_nil hne
    have hpos := c.utf8Size_pos
    rw [hnil, List.map_cons, List.sum_cons, List.length_nil] at hlength
    omega
  · rcases hlight with hlight | ⟨c, rfl⟩
    · exact .inl (hlength ▸ hlight)
    · exact .inr (by simp)

end strings

end CborSchema
