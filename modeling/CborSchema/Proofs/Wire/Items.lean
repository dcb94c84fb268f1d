import CborSchema.Proofs.Wire.Strings

/-!
# Whole items on the wire

Which bytes are one item, said without a reader, and that skipping passes over exactly these.

* `InRow P k bytes` -- the bytes are `k` pieces in a row, and `P` holds of each;
* `ItemOf P bytes` -- the bytes are one item, and `P` holds of each item in it;
* `Item levels bytes` -- one item that nests at most so many levels, itself included;
* `Item.levels_le_length` -- every level needs a byte, so as many levels as bytes are enough;
* `skipLevels_reads`, `skipLevels_yields` -- **skipping passes over one item, whichever it is**.

The payload of a string of chunks is bounded by the largest length there is: beyond it the chunks
would have no length that a head could spell.
-/

namespace CborSchema

/-! ## 1. InRow in a row -/

/-- So many pieces in a row. -/
inductive InRow (P : Bytes → Prop) : Nat → Bytes → Prop where
  | nil : InRow P 0 []
  | cons {x : Bytes} {k : Nat} {bytes : Bytes} (hx : P x) (hs : InRow P k bytes) :
      InRow P (k + 1) (x ++ bytes)

namespace InRow

variable {P Q : Bytes → Prop}

theorem mono (hPQ : ∀ x, P x → Q x) {k : Nat} {bytes : Bytes} (h : InRow P k bytes) :
    InRow Q k bytes := by
  induction h with
  | nil => exact .nil
  | cons hx _ ih => exact .cons (hPQ _ hx) ih

theorem single {x : Bytes} (hx : P x) : InRow P 1 x := by
  have := cons hx nil
  rwa [List.append_nil] at this

theorem append {j k : Nat} {u v : Bytes} (hu : InRow P j u) (hv : InRow P k v) :
    InRow P (j + k) (u ++ v) := by
  induction hu with
  | nil => simpa using hv
  | cons hx _ ih =>
    have := cons hx ih
    rw [List.append_assoc]
    rwa [Nat.add_right_comm] at this

theorem flatten {j k : Nat} {bytes : Bytes} (h : InRow (InRow P k) j bytes) :
    InRow P (j * k) bytes := by
  induction h with
  | nil => simpa using nil
  | cons hx _ ih =>
    rw [Nat.succ_mul, Nat.add_comm]
    exact hx.append ih

theorem split {j k : Nat} {bytes : Bytes} (h : InRow P (j + k) bytes) :
    ∃ u v, bytes = u ++ v ∧ InRow P j u ∧ InRow P k v := by
  induction j generalizing bytes with
  | zero => exact ⟨[], bytes, rfl, .nil, by simpa using h⟩
  | succ j ih =>
    rw [Nat.add_right_comm] at h
    cases h with
    | cons hx hs =>
      obtain ⟨u, v, rfl, hu, hv⟩ := ih hs
      exact ⟨_ ++ u, v, by rw [List.append_assoc], .cons hx hu, hv⟩

/-- Of pieces that have bytes at least one each. -/
theorem length_le (hP : ∀ x, P x → x ≠ []) {k : Nat} {bytes : Bytes} (h : InRow P k bytes) :
    k ≤ bytes.length := by
  induction h with
  | nil => exact Nat.le_refl 0
  | cons hx _ ih =>
    have := List.length_pos_iff.mpr (hP _ hx)
    rw [List.length_append]
    omega

/-- A piece is no longer than all of them. -/
theorem bounded {n k : Nat} {bytes : Bytes} (h : InRow P k bytes) (hn : bytes.length ≤ n) :
    InRow (fun x => P x ∧ x.length ≤ n) k bytes := by
  induction h with
  | nil => exact .nil
  | cons hx _ ih =>
    rw [List.length_append] at hn
    exact .cons ⟨hx, by omega⟩ (ih (by omega))

end InRow

/-! ## 2. Items -/

/-- How many items make one element: one in an array, two in a map. -/
def Major.perElement : Major → Option Nat
  | .array => some 1
  | .map => some 2
  | _ => none

theorem Major.perElement_ne_zero {m : Major} {w : Nat} (h : m.perElement = some w) :
    w ≠ 0 ∧ m ≠ .simple := by
  cases m <;> cases h <;> decide

/-- The largest length a head can spell. -/
def largestLength : UInt64 := UInt64.ofNat (UInt64.size - 1)

/-- One item, and what holds of the items in it. -/
inductive ItemOf (P : Bytes → Prop) : Bytes → Prop where
  /-- An integer or a simple value. -/
  | plain {h : Head} {front : Bytes} (hh : h.Spelled front) (ha : h.arg ≠ none)
      (hm : h.major = .unsigned ∨ h.major = .negative ∨ h.major = .simple) : ItemOf P front
  | string {h : Head} {front payload bytes : Bytes} (hh : h.Spelled front)
      (hm : h.major = .bytes ∨ h.major = .text) (hp : h.Payload largestLength payload bytes) :
      ItemOf P (front ++ bytes)
  /-- An array or a map that says how many elements it has. -/
  | counted {h : Head} {w : Nat} {n : UInt64} {front bytes : Bytes} (hh : h.Spelled front)
      (hm : h.major.perElement = some w) (hn : h.arg = some n)
      (hs : InRow P (n.toNat * w) bytes) : ItemOf P (front ++ bytes)
  /-- An array or a map that a break closes. -/
  | opened {h : Head} {w k : Nat} {front bytes : Bytes} (hh : h.Spelled front)
      (hm : h.major.perElement = some w) (hn : h.arg = none) (hs : InRow P (k * w) bytes) :
      ItemOf P (front ++ (bytes ++ [breakByte]))
  | tagged {h : Head} {front item : Bytes} (hh : h.Spelled front) (hm : h.major = .tag)
      (hi : P item) : ItemOf P (front ++ item)

/-- One item that nests at most so many levels, itself included. -/
def Item : Nat → Bytes → Prop
  | 0 => fun _ => False
  | levels + 1 => ItemOf (Item levels)

theorem ItemOf.mono {P Q : Bytes → Prop} (hPQ : ∀ x, P x → Q x) {bytes : Bytes}
    (h : ItemOf P bytes) : ItemOf Q bytes := by
  cases h with
  | plain hh ha hm => exact .plain hh ha hm
  | string hh hm hp => exact .string hh hm hp
  | counted hh hm hn hs => exact .counted hh hm hn (hs.mono hPQ)
  | opened hh hm hn hs => exact .opened hh hm hn (hs.mono hPQ)
  | tagged hh hm hi => exact .tagged hh hm (hPQ _ hi)

/-- The head in front of an item. -/
theorem ItemOf.front {P : Bytes → Prop} {bytes : Bytes} (h : ItemOf P bytes) :
    ∃ (head : Head) (front rest : Bytes), bytes = front ++ rest ∧ head.Spelled front ∧
      head.isBreak = false ∧ (head.major = .simple → rest = []) := by
  cases h with
  | plain hh ha hm =>
    refine ⟨_, bytes, [], (List.append_nil bytes).symm, hh, ?_, fun _ => rfl⟩
    simp only [Head.isBreak, Head.isIndefinite, Bool.and_eq_false_iff]
    exact .inr (by simpa using Option.isSome_iff_ne_none.mpr ha)
  | string hh hm hp =>
    rcases hm with hm | hm <;> exact ⟨_, _, _, rfl, hh, by simp [Head.isBreak, hm], by simp [hm]⟩
  | counted hh hm hn hs =>
    have hne := (Major.perElement_ne_zero hm).2
    exact ⟨_, _, _, rfl, hh, by simp [Head.isBreak, hne], fun e => absurd e hne⟩
  | opened hh hm hn hs =>
    have hne := (Major.perElement_ne_zero hm).2
    exact ⟨_, _, _, rfl, hh, by simp [Head.isBreak, hne], fun e => absurd e hne⟩
  | tagged hh hm hi => exact ⟨_, _, _, rfl, hh, by simp [Head.isBreak, hm], by simp [hm]⟩

namespace Item

theorem of_succ {l : Nat} {bytes : Bytes} (h : Item l bytes) : ∃ P, ItemOf P bytes := by
  cases l with
  | zero => exact absurd h id
  | succ l => exact ⟨Item l, h⟩

theorem succ : ∀ {l : Nat} {bytes : Bytes}, Item l bytes → Item (l + 1) bytes
  | 0, _, h => absurd h id
  | _ + 1, _, h => ItemOf.mono (fun _ => succ) h

theorem mono {j k : Nat} (hjk : j ≤ k) {bytes : Bytes} (h : Item j bytes) : Item k bytes := by
  induction hjk with
  | refl => exact h
  | step _ ih => exact succ ih

theorem startsItem {l : Nat} {bytes : Bytes} (h : Item l bytes) : Scan.StartsItem bytes := by
  obtain ⟨P, hP⟩ := of_succ h
  obtain ⟨head, front, rest, rfl, hh, hb, _⟩ := hP.front
  exact (hh.startsItem hb).append rest

theorem ne_nil {l : Nat} {bytes : Bytes} (h : Item l bytes) : bytes ≠ [] := h.startsItem.ne_nil

/-- **An item that starts with the null byte is null.** -/
theorem eq_null {l : Nat} {bytes : Bytes} (h : Item l bytes) (hn : bytes.head? = some nullByte) :
    bytes = [nullByte] := by
  obtain ⟨P, hP⟩ := of_succ h
  obtain ⟨head, front, rest, rfl, hh, _, hs⟩ := hP.front
  have hn : front.head? = some nullByte := by
    obtain ⟨i, tail, rfl, _⟩ := hh.head_major
    exact hn
  obtain ⟨rfl, hm, _⟩ := hh.eq_null hn
  rw [hs hm, List.append_nil]

/-- **Every level of nesting takes a byte.** -/
theorem levels_le_length : ∀ {l : Nat} {bytes : Bytes}, Item l bytes → Item bytes.length bytes
  | 0, _, h => absurd h id
  | l + 1, bytes, h => by
    have enough : ∀ {n : Nat} {x : Bytes}, Item l x ∧ x.length ≤ n → Item n x :=
      fun hx => mono hx.2 (levels_le_length hx.1)
    have inner : ∀ (front : Bytes), front ≠ [] →
        ∀ rest : Bytes, ∃ n, (front ++ rest).length = n + 1 ∧
        rest.length ≤ n := by
      intro front hne rest
      have := List.length_pos_iff.mpr hne
      exact ⟨front.length + rest.length - 1, by rw [List.length_append]; omega, by omega⟩
    cases h with
    | plain hh ha hm =>
      obtain ⟨n, hn, _⟩ := inner bytes hh.ne_nil []
      rw [List.append_nil] at hn
      rw [hn]
      exact .plain hh ha hm
    | string hh hm hp =>
      obtain ⟨n, hn, _⟩ := inner _ hh.ne_nil _
      rw [hn]
      exact .string hh hm hp
    | counted hh hm hn hs =>
      obtain ⟨n, hlen, hle⟩ := inner _ hh.ne_nil _
      rw [hlen]
      exact .counted hh hm hn ((hs.bounded hle).mono fun _ => enough)
    | opened hh hm hn hs =>
      obtain ⟨n, hlen, hle⟩ := inner _ hh.ne_nil _
      rw [hlen]
      rw [List.length_append] at hle
      exact .opened hh hm hn ((hs.bounded (by omega)).mono fun _ => enough)
    | tagged hh hm hi =>
      obtain ⟨n, hlen, hle⟩ := inner _ hh.ne_nil _
      rw [hlen]
      exact .tagged hh hm (enough ⟨hi, hle⟩)

end Item

/-! ## 3. Repeated scans -/

namespace Scan

variable {P : Bytes → Prop} {s : Scan Unit} {w : Nat}

theorem times_reads (hs : ∀ u, InRow P w u → s.Reads u ()) {n : Nat} {u : Bytes}
    (h : InRow P (n * w) u) : (times n s).Reads u () := by
  induction n generalizing u with
  | zero =>
    rw [Nat.zero_mul] at h
    cases h
    exact Reads.pure ()
  | succ n ih =>
    rw [Nat.succ_mul, Nat.add_comm] at h
    obtain ⟨x, v, rfl, hx, hv⟩ := h.split
    exact (hs x hx).bind (ih hv)

theorem times_yields (hs : s.Yields fun _ u => InRow P w u) (n : Nat) :
    (times n s).Yields fun _ u => InRow P (n * w) u := by
  induction n with
  | zero => exact Yields.pure (by rw [Nat.zero_mul]; exact .nil)
  | succ n ih =>
    refine hs.bind fun _ x hx => ih.mono fun _ u hu => ?_
    rw [Nat.succ_mul, Nat.add_comm]
    exact hx.append hu

/-- Elements up to their break are read with any number of turns above the number of bytes. -/
theorem untilBreak_reads (hP : ∀ x, P x → StartsItem x) (hw : w ≠ 0)
    (hs : ∀ u, InRow P w u → s.Reads u ()) {k turns : Nat} {u : Bytes} (h : InRow P (k * w) u)
    (ht : u.length < turns) : (untilBreak s turns).Reads (u ++ [breakByte]) () := by
  induction k generalizing u turns with
  | zero =>
    obtain ⟨t, rfl⟩ := Nat.exists_eq_add_of_lt ht
    rw [Nat.zero_mul] at h
    cases h
    exact Reads.stop (closing_reads _)
  | succ k ih =>
    obtain ⟨t, rfl⟩ := Nat.exists_eq_add_of_lt ht
    rw [Nat.succ_mul, Nat.add_comm] at h
    obtain ⟨x, v, rfl, hx, hv⟩ := h.split
    have hstart : StartsItem x := by
      obtain ⟨j, rfl⟩ := Nat.exists_eq_succ_of_ne_zero hw
      cases hx with
      | cons hy _ => exact (hP _ hy).append _
    have hlen : 0 < x.length := List.length_pos_iff.mpr hstart.ne_nil
    rw [List.append_assoc]
    refine Reads.go (hstart.append _) ((hs x hx).bind (ih hv ?_))
    rw [List.length_append]
    omega

theorem toBreak_yields (hP : ∀ x, P x → StartsItem x) (hw : w ≠ 0)
    (hr : ∀ u, InRow P w u → s.Reads u ()) (hs : s.Yields fun _ u => InRow P w u) :
    (toBreak s).Yields fun _ u => ∃ k v, u = v ++ [breakByte] ∧ InRow P (k * w) v := by
  refine Yields.of_reads ?_ ?_
  · rintro _ _ ⟨k, v, rfl, hv⟩ rest
    exact untilBreak_reads hP hw hr hv (by simp only [List.length_append]; omega) rest
  · intro bytes _ rest h
    have loop : ∀ turns, (untilBreak s turns).Yields fun _ u =>
        u ≠ [] ∧ ∃ k v, u = v ++ [breakByte] ∧ InRow P (k * w) v := by
      intro turns
      induction turns with
      | zero => exact Yields.fail _
      | succ turns ih =>
        refine Yields.ifBreak ?_ ?_
        · refine (closing_yields _).mono fun _ u hu => ?_
          subst hu
          exact ⟨by simp, by simp, 0, [], rfl, by rw [Nat.zero_mul]; exact .nil⟩
        · refine hs.bind fun _ x hx => ih.mono ?_
          rintro _ _ ⟨_, k, v, rfl, hv⟩
          have hne : x ++ (v ++ [breakByte]) ≠ [] := by simp
          refine ⟨hne, hne, k + 1, x ++ v, by rw [List.append_assoc], ?_⟩
          rw [Nat.succ_mul, Nat.add_comm]
          exact hx.append hv
    obtain ⟨u, hu, _, _, hP⟩ := loop _ bytes () rest h
    exact ⟨u, hu, hP⟩

/-! ## 4. Skipping -/

/-- Two items in a row. -/
theorem pair_reads (hs : ∀ x, P x → s.Reads x ()) {u : Bytes} (h : InRow P 2 u) :
    (do s; s).Reads u () := by
  cases h with
  | cons hx h =>
    cases h with
    | cons hy h =>
      cases h
      rw [List.append_nil]
      exact (hs _ hx).bind (hs _ hy)

theorem single_reads (hs : ∀ x, P x → s.Reads x ()) {u : Bytes} (h : InRow P 1 u) :
    s.Reads u () := by
  cases h with
  | cons hx h =>
    cases h
    rw [List.append_nil]
    exact hs _ hx

theorem pair_yields (hs : s.Yields fun _ u => P u) : (do s; s).Yields fun _ u => InRow P 2 u :=
  hs.bind fun _ _ hx => hs.mono fun _ _ hy => (InRow.single hx).append (InRow.single hy)

end Scan

theorem largestLength_toNat : largestLength.toNat = 2 ^ 64 - 1 := by decide

/-- What a head without a length limit allows. -/
theorem Head.Payload.largest {h : Head} {max : UInt64} {payload bytes : Bytes}
    (hp : h.Payload max payload bytes) : h.Payload largestLength payload bytes := by
  refine hp.mono ?_
  have := max.toNat_lt
  rw [largestLength_toNat]
  omega

open Scan in
/-- **An item that does not nest too deep is passed over.** -/
theorem skipLevels_reads (max : Nat) : ∀ {l : Nat} {u : Bytes}, Item l u →
    (skipLevels max l).Reads u ()
  | 0, _, h => absurd h id
  | l + 1, u, h => by
    have ih : ∀ x, Item l x → (skipLevels max l).Reads x () := fun x => skipLevels_reads max
    have start : ∀ x, Item l x → StartsItem x := fun x hx => hx.startsItem
    cases h with
    | plain hh ha hm =>
      rw [← List.append_nil u]
      refine (hh "item").bind ?_
      obtain ⟨a, ha⟩ := Option.ne_none_iff_exists'.mp ha
      rcases hm with hm | hm | hm <;> simp only [hm, ha] <;> exact Reads.pure ()
    | string hh hm hp =>
      rename_i h front payload bytes
      refine (hh "item").bind ?_
      cases hn : h.arg with
      | none =>
        have := (payload_reads hp "string").bind (f := fun _ => pure ()) (Reads.pure ())
        rw [List.append_nil] at this
        rcases hm with hm | hm <;> simp only [hm] <;> exact this
      | some n =>
        cases hp with
        | indefinite hn' => rw [hn] at hn'; cases hn'
        | definite hn' hl =>
          rw [hn, Option.some.injEq] at hn'
          subst hn'
          have := (take_reads hl "string").bind (f := fun _ => pure ()) (Reads.pure ())
          rw [List.append_nil] at this
          rcases hm with hm | hm <;> simp only [hm] <;> exact this
    | counted hh hm hn hs =>
      rename_i h w n front bytes
      refine (hh "item").bind ?_
      cases hmaj : h.major <;> rw [hmaj] at hm <;> cases hm <;> simp only [hn]
      · exact times_reads (fun _ => single_reads ih) hs
      · exact times_reads (fun _ => pair_reads ih) hs
    | opened hh hm hn hs =>
      rename_i h w k front bytes
      refine (hh "item").bind ?_
      cases hmaj : h.major <;> rw [hmaj] at hm <;> cases hm <;> simp only [hn] <;> intro rest
      · exact untilBreak_reads start (by decide) (fun _ => single_reads ih) hs
          (by simp only [List.length_append]; omega) rest
      · exact untilBreak_reads start (by decide) (fun _ => pair_reads ih) hs
          (by simp only [List.length_append]; omega) rest
    | tagged hh hm hi =>
      refine (hh "item").bind ?_
      simp only [hm]
      exact ih _ hi

open Scan in
/-- **Skipping passes over one item that does not nest too deep.** -/
theorem skipLevels_yields (max : Nat) : ∀ l : Nat, (skipLevels max l).Yields fun _ u => Item l u
  | 0 => Yields.fail _
  | l + 1 => by
    have ih := skipLevels_yields max l
    have start : ∀ x, Item l x → StartsItem x := fun x hx => hx.startsItem
    have reads : ∀ x, Item l x → (skipLevels max l).Reads x () := fun x => skipLevels_reads max
    refine (head_yields "item").bind fun h front hh => ?_
    have plain (ha : h.arg ≠ none)
        (hm : h.major = .unsigned ∨ h.major = .negative ∨ h.major = .simple) :
        (pure () : Scan Unit).Yields fun _ v => Item (l + 1) (front ++ v) := by
      refine Yields.pure ?_
      rw [List.append_nil]
      exact .plain hh ha hm
    have string {s : Scan Bytes} (hm : h.major = .bytes ∨ h.major = .text)
        (hs : s.Yields (h.Payload largestLength)) :
        (s >>= fun _ => pure ()).Yields fun _ v => Item (l + 1) (front ++ v) := by
      refine hs.bind fun payload u hp => Yields.pure ?_
      rw [List.append_nil]
      exact .string hh hm hp
    have counted {w : Nat} {n : UInt64} {s : Scan Unit} (hm : h.major.perElement = some w)
        (hn : h.arg = some n) (hy : s.Yields fun _ u => InRow (Item l) w u) :
        (times n.toNat s).Yields fun _ v => Item (l + 1) (front ++ v) :=
      (times_yields hy n.toNat).mono fun _ _ hv => .counted hh hm hn hv
    have opened {w : Nat} {s : Scan Unit} (hm : h.major.perElement = some w) (hn : h.arg = none)
        (hr : ∀ u, InRow (Item l) w u → s.Reads u ())
        (hy : s.Yields fun _ u => InRow (Item l) w u) :
        (toBreak s).Yields fun _ v => Item (l + 1) (front ++ v) := by
      refine (toBreak_yields start (Major.perElement_ne_zero hm).1 hr hy).mono ?_
      rintro _ _ ⟨k, v, rfl, hv⟩
      exact .opened hh hm hn hv
    have single : (skipLevels max l).Yields fun _ u => InRow (Item l) 1 u :=
      ih.mono fun _ _ => InRow.single
    have definite {n : UInt64} (hn : h.arg = some n) :
        (take n.toNat "string").Yields (h.Payload largestLength) := by
      refine (take_yields n.toNat "string").mono ?_
      rintro part _ ⟨rfl, hl⟩
      have := n.toNat_lt
      exact .definite hn hl (by rw [largestLength_toNat]; omega)
    have closed : h.arg = none → h.major.hasOpenForm := hh.hasOpenForm
    split
    · rename_i hm
      exact plain (fun hn => absurd (closed hn) (by rw [hm]; decide)) (.inl hm)
    · rename_i hm
      exact plain (fun hn => absurd (closed hn) (by rw [hm]; decide)) (.inr (.inl hm))
    · rename_i hm hn
      exact plain (by simp [hn]) (.inr (.inr hm))
    · exact Yields.fail _
    · rename_i hm hn
      exact string (.inl hm) (definite hn)
    · rename_i hm hn
      exact string (.inr hm) (definite hn)
    · rename_i hm hn
      exact string (.inl hm) (payload_yields h _ _)
    · rename_i hm hn
      exact string (.inr hm) (payload_yields h _ _)
    · rename_i hm hn
      exact counted (by rw [hm]; rfl) hn single
    · rename_i hm hn
      exact opened (by rw [hm]; rfl) hn (fun _ => single_reads reads) single
    · rename_i hm hn
      exact counted (by rw [hm]; rfl) hn (pair_yields ih)
    · rename_i hm hn
      exact opened (by rw [hm]; rfl) hn (fun _ => pair_reads reads) (pair_yields ih)
    · rename_i hm
      exact ih.mono fun _ _ hv => .tagged hh hm hv

namespace Scan

theorem skip_reads {depth : Nat} {u : Bytes} (h : Item (depth + 1) u) : (skip depth).Reads u () :=
  skipLevels_reads depth h

theorem skip_yields (depth : Nat) : (skip depth).Yields fun _ u => Item (depth + 1) u :=
  skipLevels_yields depth (depth + 1)

/-- With a level for each byte nothing is too deep. -/
theorem skip_reads_of_length {l depth : Nat} {u : Bytes} (h : Item l u) (hd : u.length ≤ depth) :
    (skip depth).Reads u () :=
  skip_reads (h.levels_le_length.mono (Nat.le_succ_of_le hd))

theorem passed_reads {s : Scan Unit} {u : Bytes} (h : s.Reads u ()) : (passed s).Reads u u := by
  intro rest
  rw [passed, h rest]
  simp

theorem passed_yields {s : Scan Unit} {P : Bytes → Prop} (hs : s.Yields fun _ u => P u) :
    (passed s).Yields fun span u => span = u ∧ P u := by
  intro bytes span rest hr
  have hr' : passed s bytes = (.ok span, rest) := hr
  rw [passed] at hr'
  split at hr'
  · rename_i mid hm
    obtain ⟨u, rfl, hR, hP⟩ := hs bytes () mid hm
    cases hr'
    have hspan : (u ++ rest).take ((u ++ rest).length - rest.length) = u := by simp
    rw [hspan]
    exact ⟨u, rfl, passed_reads hR, rfl, hP⟩
  · cases hr'

/-- **The bytes of an item that does not nest too deep.** -/
theorem item_reads {depth : Nat} {u : Bytes} (h : Item (depth + 1) u) : (item depth).Reads u u :=
  passed_reads (skip_reads h)

theorem item_yields (depth : Nat) :
    (item depth).Yields fun span u => span = u ∧ Item (depth + 1) u :=
    passed_yields (skip_yields depth)

end Scan

end CborSchema
