import CborSchema.Proofs.Decode.Alone
import CborSchema.Proofs.Decode.Simple
import CborSchema.Proofs.Roundtrip.Rebuilt

/-!
# Integers at every width

An integer is written under a head of the width its shape asks for, and read under a head of any
width. The sign is in the major type, the magnitude in the argument: `v` itself, or `-1 - v` for a
negative one. All statements here are about integers without bounds, so that nothing can wrap around
unseen.

* `HeadWidth.limit`, `fits_iff` -- the arguments that a width holds are the ones up to its limit;
* `headBytes_length`, `Head.Spelled.length_ge` -- a written head has the width asked for, and the
  minimal one is the shortest there is;
* `wireArgument`, `Head.integer?` -- the argument of an integer, the integer of a head;
* `Scalar.Integer`, `write_integer` -- the integers of a kind and what is written for them;
* `Catalog.TakesIn`, `readAt_integer` -- an integer is read off every head that stands for it;
* `Catalog.integers_survive_every_width` -- **an integer is refused by its width or read back as it
  was, and a type takes in the integers of its range.**
-/

namespace CborSchema

open Decoder

/-! ## 1. Widths -/

/-- The largest argument that a head of a width holds; the minimal width adapts. -/
def HeadWidth.limit : HeadWidth → Nat
  | .minimal => 2 ^ 64 - 1
  | .one => 2 ^ 8 - 1
  | .two => 2 ^ 16 - 1
  | .four => 2 ^ 32 - 1
  | .eight => 2 ^ 64 - 1

theorem argumentSize_eq (v : UInt64) : argumentSize v =
    if v.toNat < 24 then 0 else if v.toNat < 2 ^ 8 then 1 else if v.toNat < 2 ^ 16 then 2
    else if v.toNat < 2 ^ 32 then 4 else 8 := by
  simp only [argumentSize, UInt64.lt_iff_toNat_lt]
  rfl

/-- **The arguments that a width holds are the ones up to its limit.** -/
theorem fits_iff (w : HeadWidth) (v : UInt64) : w.fits v = true ↔ v.toNat ≤ w.limit := by
  have hlt := v.toNat_lt
  have hsize := argumentSize_eq v
  cases w with
  | minimal => simp [HeadWidth.fits, HeadWidth.limit]; omega
  | _ =>
    simp only [HeadWidth.fits, HeadWidth.size, HeadWidth.limit, decide_eq_true_eq, hsize]
    split_ifs <;> omega

/-- The numbers of argument bytes that a head is written with. -/
theorem max_size_cases (w : HeadWidth) (v : UInt64) : max w.size (argumentSize v) = 0 ∨
    max w.size (argumentSize v) = 1 ∨ max w.size (argumentSize v) = 2 ∨
    max w.size (argumentSize v) = 4 ∨ max w.size (argumentSize v) = 8 := by
  have hsize := argumentSize_eq v
  cases w <;> simp only [HeadWidth.size] <;> split_ifs at hsize <;> omega

/-- A head is one byte and its argument. -/
theorem headBytes_length (m : Major) (v : UInt64) (w : HeadWidth) :
    (headBytes m v w).length = 1 + max w.size (argumentSize v) := by
  unfold headBytes
  rcases max_size_cases w v with h | h | h | h | h
  all_goals
    rw [h]
    simp [length_bigEndian]

theorem headBytes_length_of_fits {m : Major} {v : UInt64} {w : HeadWidth} (hw : w ≠ .minimal)
    (h : w.fits v = true) : (headBytes m v w).length = 1 + w.size := by
  have hle : argumentSize v ≤ w.size := by
    cases w with
    | minimal => exact absurd rfl hw
    | _ => simpa [HeadWidth.fits] using h
  rw [headBytes_length, Nat.max_eq_left hle]

/-- **No head with an argument is shorter than the size of the argument asks for.** -/
theorem Head.Spelled.length_ge {h : Head} {front : Bytes} {v : UInt64} (hs : h.Spelled front)
    (ha : h.arg = some v) : 1 + argumentSize v ≤ front.length := by
  have hsize := argumentSize_eq v
  cases hs.form with
  | short hi =>
    rename_i i
    obtain rfl := Option.some.inj ha
    have hlt : (i &&& 0x1f).toNat < 24 := UInt8.lt_iff_toNat_lt.mp hi
    rw [UInt8.toNat_toUInt64, if_pos hlt] at hsize
    rw [hsize]
    exact Nat.le_refl 1
  | long hi hn =>
    rename_i i n argument
    obtain rfl := Option.some.inj ha
    have hlt := ofBigEndian_lt argument
    have hle : (UInt64.ofNat (ofBigEndian argument)).toNat ≤ ofBigEndian argument := by
      rw [UInt64.toNat_ofNat']
      exact Nat.mod_le _ _
    rw [hn] at hlt
    rw [List.length_cons, hn, hsize]
    unfold announcedSize at hi
    split at hi <;> cases hi <;> split_ifs <;> omega
  | opened hi hm => cases ha

/-! ## 2. Integers and heads -/

/-- The major type of an integer. -/
def signMajor (z : Int) : Major := if z < 0 then .negative else .unsigned

/-- The argument of an integer, as a number. -/
def wireArgument (z : Int) : Nat := if z < 0 then (-1 - z).toNat else z.toNat

/-- The integer that a head stands for. -/
def Head.integer? (h : Head) : Option Int :=
  match h.major, h.arg with
  | .unsigned, some n => some n.toNat
  | .negative, some n => some (-1 - n.toNat)
  | _, _ => none

/-- The integer that a scalar stands for. -/
def Scalar.integer? : Scalar → Option Int
  | .uint n => some n.toNat
  | .nint n => some (-1 - n.toNat)
  | .int n => some n.toInt
  | _ => none

/-- **A head stands for an integer under its sign and its magnitude.** -/
theorem Head.integer?_eq_some {h : Head} {z : Int} : h.integer? = some z ↔
    h.major = signMajor z ∧ ∃ n, h.arg = some n ∧ n.toNat = wireArgument z := by
  obtain ⟨major, info, arg⟩ := h
  unfold integer? signMajor wireArgument
  constructor
  · intro h
    split at h
    · rename_i n hm ha
      cases h
      exact ⟨by rw [if_neg (by omega)]; exact hm, n, ha, by simp⟩
    · rename_i n hm ha
      cases h
      exact ⟨by rw [if_pos (by omega)]; exact hm, n, ha, by rw [if_pos (by omega)]; omega⟩
    · cases h
  · rintro ⟨hm, n, ha, hn⟩
    dsimp only at hm ha
    subst hm ha
    by_cases hz : z < 0
    · rw [if_pos hz] at hn ⊢
      simp only [Option.some.injEq]
      omega
    · rw [if_neg hz] at hn ⊢
      simp only [Option.some.injEq]
      omega

/-- The sign of a signed integer is the sign of the number. -/
theorem nonneg_iff (n : Int64) : 0 ≤ n ↔ 0 ≤ n.toInt := by
  rw [Int64.le_iff_toInt_le, Int64.toInt_zero]

/-- A number that is not negative is its own argument. -/
theorem wireArgument_natCast (n : Nat) : wireArgument n = n := by
  rw [wireArgument, if_neg (by omega), Int.toNat_natCast]

theorem signMajor_natCast (n : Nat) : signMajor n = .unsigned := by
  rw [signMajor, if_neg (by omega)]

theorem signMajor_toInt (n : Int64) :
    signMajor n.toInt = if 0 ≤ n then .unsigned else .negative := by
  rw [signMajor]
  by_cases hn : 0 ≤ n
  · rw [if_pos hn, if_neg (not_lt.mpr ((nonneg_iff n).mp hn))]
  · rw [if_neg hn, if_pos (not_le.mp (mt (nonneg_iff n).mpr hn))]

theorem toInt_toInt64 {n : UInt64} (h : n < 0x8000000000000000) : n.toInt64.toInt = n.toNat := by
  have hlt : n.toNat < 2 ^ 63 := UInt64.lt_iff_toNat_lt.mp h
  have htwice : 2 * n.toBitVec.toNat < 2 ^ 64 := by
    rw [UInt64.toNat_toBitVec]
    omega
  rw [← Int64.toInt_toBitVec, UInt64.toBitVec_toInt64, BitVec.toInt_eq_toNat_of_lt htwice,
    UInt64.toNat_toBitVec]

/-- **The complement of a magnitude that fits is not wrapped around.** -/
theorem toInt_complement {n : UInt64} (h : n < 0x8000000000000000) :
    (-1 - n.toInt64).toInt = -1 - n.toNat := by
  have hlt : n.toNat < 2 ^ 63 := UInt64.lt_iff_toNat_lt.mp h
  have hone : (-1 : Int64).toInt = -1 := by decide
  rw [Int64.toInt_sub, hone, toInt_toInt64 h, Int.bmod_eq_of_le (by omega) (by omega)]

theorem toNat_wireMagnitude (n : Int64) : (wireMagnitude n).toNat = wireArgument n.toInt := by
  have hlt := wireMagnitude_lt n
  by_cases hn : 0 ≤ n
  · have hnumber := toInt_toInt64 hlt
    rw [toInt64_wireMagnitude hn] at hnumber
    have hpos := (nonneg_iff n).mp hn
    rw [wireArgument, if_neg (by omega)]
    omega
  · have hnumber := toInt_complement hlt
    rw [complement_wireMagnitude hn] at hnumber
    rw [wireArgument, if_pos (by omega)]
    omega

/-! ## 3. Writing -/

/-- The scalars that a kind writes as integers. -/
inductive Scalar.Integer : Primitive → Scalar → Int → Prop where
  | unsigned (n : UInt64) : Integer .uint (.uint n) n.toNat
  | natural (n : UInt64) : Integer .int (.uint n) n.toNat
  | signed (n : Int64) : Integer .int (.int n) n.toInt

namespace Scalar.Integer

variable {p : Primitive} {x : Scalar} {z : Int} {s : Shape}

/-- **An integer is written under its sign, at the width of the shape.** -/
theorem written (hx : x.Integer p z) (s : Shape) (style : Option ItemStyle) :
    ∃ n : UInt64, n.toNat = wireArgument z ∧ s.writeScalarOf style p x =
      (s.requireWidth n >>= fun _ => pure (headBytes (signMajor z) n s.headWidth)) := by
  cases hx with
  | unsigned n | natural n =>
    rw [signMajor_natCast]
    exact ⟨n, (wireArgument_natCast _).symm, rfl⟩
  | signed n =>
    rw [signMajor_toInt]
    exact ⟨wireMagnitude n, toNat_wireMagnitude n, rfl⟩

/-- **An integer is what a reader of its kind finds behind a head that stands for it.** -/
theorem after (hx : x.Integer p z) {r : Reading} {h : Head} (hz : h.integer? = some z) :
    s.ScalarAfter r h p x.wire [] := by
  obtain ⟨hm, n, ha, hn⟩ := Head.integer?_eq_some.mp hz
  cases hx with
  | unsigned m =>
    obtain rfl : n = m := UInt64.toNat_inj.mp (hn.trans (wireArgument_natCast _))
    refine .uint ?_
    rw [Head.uint, hm, ha, signMajor_natCast]
    rfl
  | natural m =>
    obtain rfl : n = m := UInt64.toNat_inj.mp (hn.trans (wireArgument_natCast _))
    refine .int ?_
    rw [Head.int, hm, ha, signMajor_natCast]
    rfl
  | signed m =>
    obtain rfl : n = wireMagnitude m := UInt64.toNat_inj.mp (hn.trans (toNat_wireMagnitude m).symm)
    refine .int ?_
    rw [Head.int, hm, ha, signMajor_toInt, Scalar.wire]
    by_cases hpos : 0 ≤ m
    · rw [if_pos hpos, if_pos hpos]
      rfl
    · rw [if_neg hpos, if_neg hpos]
      rfl

theorem forWriting (hx : x.Integer p z) : x.forWriting = .ok x := by
  cases hx <;> rfl

end Scalar.Integer

section write

variable {t : TypeExpr} {s : Shape} {p : Primitive} {x : Scalar} {z : Int} {notes : Notes}

/-- **An integer is refused by the width of its shape or written at this width.** -/
theorem write_integer (c : Codec) (o : EncodeOptions) (depth : Nat) (hs : c.resolve t = .ok s)
    (hk : s.kind = .scalar p) (hx : x.Integer p z)
    (hr : s.preserveRaw = true → notes.raw = none) : ∃ n : UInt64, n.toNat = wireArgument z ∧
      (c.write o (depth + 1) t (.node t (.scalar x) notes)).result =
        if s.headWidth.fits n then .ok
          (s.tagBefore notes.emit ++ headBytes (signMajor z) n s.headWidth)
        else .error (.integerWidth s.name n) := by
  obtain ⟨n, hn, hwritten⟩ := hx.written s notes.emit
  refine ⟨n, hn, ?_⟩
  have hpieces : c.catalog.pieces t (.node t (.scalar x) notes) =
      .ok { content := .scalar x, alternative := notes.alternative, style := notes.emit } := by
    have htype : ¬ (Value.node t (.scalar x) notes).type ≠ t := not_not.mpr rfl
    rw [Catalog.pieces, if_neg htype]
    show (x.forWriting >>= _) = _
    rw [hx.forWriting]
    rfl
  have hraw : s.preserveRaw = true → (Value.node t (.scalar x) notes).notes.raw = none := hr
  have hkind : s.writeKind (c.writing o depth)
      { content := .scalar x, alternative := notes.alternative, style := notes.emit } =
        Outcome.ofExcept (s.writeScalarOf notes.emit p x) := by
    rw [Shape.writeKind, hk]
    rfl
  rw [Codec.write_of_pieces hs hraw hpieces, Shape.writePieces, Outcome.result_bind,
    hkind, hwritten,
    Shape.requireWidth]
  split
  · rfl
  · rfl

end write

/-! ## 4. Reading -/

/-- A type takes a scalar in: a built-in type in its own form, a declared type in the form of its
    shape. -/
inductive Catalog.TakesIn (c : Catalog) (s : Shape) (x : Scalar) : TypeExpr → Prop where
  | builtIn {t : TypeExpr} {form : ScalarForm} (ht : t.form? = some form) (hx : form.Holds x) :
      TakesIn c s x t
  | declared {name : String} (hc : (c.declared name).conversion.Default)
      (hx : (s.scalarForm (c.declared name).conversion).Holds x) : TakesIn c s x (.named name)

section read

variable {c : Catalog} {t : TypeExpr} {s : Shape} {p : Primitive} {x : Scalar} {z : Int} {h : Head}
  {front : Bytes}

/-- A scalar that a type takes in is built into a value of it. -/
theorem Catalog.TakesIn.construct (hx : c.TakesIn s x t) (hs : c.resolve t = .ok s)
    (hk : s.kind = .scalar p) {parts : Parts} (hp : parts.content = .scalar x.wire) :
    ∃ notes, c.construct t s parts = .ok (.node t (.scalar x) notes) := by
  cases hx with
  | builtIn ht hx => exact ⟨_, scalar_rebuilt ht hx hp⟩
  | declared hc hx =>
    rename_i name
    have hasks : s.asksFor (c.declared name).conversion = .scalar := by
      have hlayout := (check_scalar (resolve_check hs).1 hk).1
      rw [Shape.asksFor, hc.asks]
      simp [Shape.asks, hk, hlayout]
    refine ⟨_, @construct_named _ _ _ hc _ (.scalar x) ?_⟩
    rw [hasks, Catalog.contentOf, Parts.scalar, hp]
    dsimp only
    rw [take_wire hx]
    rfl

/-- **An integer is read off every head that stands for it**, whatever width its shape asks for. -/
theorem readAt_integer (o : DecodeOptions) (depth : Nat) (hs : c.resolve t = .ok s)
    (hk : s.kind = .scalar p) (hx : x.Integer p z) (ht : c.TakesIn s x t) (hh : h.Spelled front)
    (hz : h.integer? = some z) (style : Option ItemStyle) : ∃ notes,
      c.codec.ReadAt o depth t (.node t (.scalar x) notes) (s.tagBefore style ++ front) := by
  have hscalar : s.ScalarAt (c.codec.reading o depth) p _ (front ++ []) := .mk hh (hx.after hz)
  rw [List.append_nil] at hscalar
  obtain ⟨tagged, hitem, -⟩ := (Shape.KindAt.scalar hk hscalar).tagged (resolve_check hs).1 style
  have hbuilt : ∀ raw, ∃ notes, c.construct t s
      { name := s.name, content := .scalar x.wire,
        style := { indefinite := p.isString && h.isIndefinite, tagged }, raw } =
        .ok (.node t (.scalar x) notes) := fun raw => ht.construct hs hk rfl
  by_cases hraw : s.preserveRaw = true
  · obtain ⟨notes, hv⟩ := hbuilt (some _)
    exact ⟨notes, .mk hs (.kept hraw hitem) hv⟩
  · obtain ⟨notes, hv⟩ := hbuilt none
    exact ⟨notes, .mk hs (.dropped (by simpa using hraw) hitem) hv⟩

end read

/-! ## 5. Ranges -/

/-- The integers that a form takes in. -/
def ScalarForm.Range : ScalarForm → Int → Prop
  | .int64, z => -2 ^ 63 ≤ z ∧ z ≤ 2 ^ 63 - 1
  | .uint32, z => 0 ≤ z ∧ z ≤ 2 ^ 32 - 1
  | .uint64, z => 0 ≤ z
  | _, _ => False

section ranges

variable {c : Catalog} {o : DecodeOptions} {depth : Nat} {t : TypeExpr} {s : Shape} {p : Primitive}
  {form : ScalarForm} {x y : Scalar} {z : Int} {h : Head} {front : Bytes}

/-- What a reader finds behind a head that stands for an integer is this integer, as it is on the
    wire. -/
theorem Shape.ScalarAfter.integer {r : Reading} {u : Bytes} (hx : s.ScalarAfter r h p x u)
    (hz : h.integer? = some z) : u = [] ∧ x.integer? = some z ∧ ∃ n, x = .uint n ∨ x = .nint n := by
  obtain ⟨major, info, arg⟩ := h
  unfold Head.integer? at hz
  split at hz
  · rename_i n hm ha
    dsimp only at hm ha
    subst hm ha
    cases hx with
    | uint hn | int hn =>
      cases hn
      exact ⟨rfl, hz, n, .inl rfl⟩
    | bool hb => cases hb
    | null hn => cases hn
    | bytes hp | embedded hp => cases hp.major
    | text hp _ => cases hp.major
  · rename_i n hm ha
    dsimp only at hm ha
    subst hm ha
    cases hx with
    | int hn =>
      cases hn
      exact ⟨rfl, hz, n, .inr rfl⟩
    | uint hn => cases hn
    | bool hb => cases hb
    | null hn => cases hn
    | bytes hp | embedded hp => cases hp.major
    | text hp _ => cases hp.major
  · cases hz

theorem Shape.ScalarAt.integer {r : Reading} {parts : Parts} (hat : s.ScalarAt r p parts front)
    (hh : h.Spelled front) (hz : h.integer? = some z) :
    ∃ x, parts.content = .scalar x ∧ x.integer? = some z ∧ ∃ n, x = .uint n ∨ x = .nint n := by
  cases hat with
  | mk hh' hx =>
    obtain rfl := StartsHead.unique ⟨_, [], (List.append_nil _).symm, hh⟩ ⟨_, _, rfl, hh'⟩
    obtain ⟨-, hinteger, hwire⟩ := hx.integer hz
    exact ⟨_, rfl, hinteger, hwire⟩

/-- **An integer that a form takes in is in its range, and stays the same.** -/
theorem take_integer (hform : form ≠ .any) (hx : x.integer? = some z)
    (hwire : ∃ n, x = .uint n ∨ x = .nint n) (hy : form.take x = .ok y) :
    form.Holds y ∧ form.Range z ∧ y.integer? = some z := by
  obtain ⟨n, rfl | rfl⟩ := hwire
  · obtain rfl := Option.some.inj hx
    cases form with
    | uint64 =>
      cases hy
      exact ⟨.uint64 n, Int.natCast_nonneg _, rfl⟩
    | uint32 =>
      rw [ScalarForm.take] at hy
      split at hy
      · rename_i hn
        cases hy
        have hlt : n.toNat < 2 ^ 32 := UInt64.lt_iff_toNat_lt.mp hn
        exact ⟨.uint32 hn, ⟨by omega, by omega⟩, rfl⟩
      · cases hy
    | int64 =>
      rw [ScalarForm.take] at hy
      split at hy
      · rename_i hn
        cases hy
        have hlt : n.toNat < 2 ^ 63 := UInt64.lt_iff_toNat_lt.mp hn
        exact ⟨.int64 _, ⟨by omega, by omega⟩, congrArg some (toInt_toInt64 hn)⟩
      · cases hy
    | any => exact absurd rfl hform
    | bool | bytes | text | null => cases hy
  · obtain rfl := Option.some.inj hx
    cases form with
    | int64 =>
      rw [ScalarForm.take] at hy
      split at hy
      · rename_i hn
        cases hy
        have hlt : n.toNat < 2 ^ 63 := UInt64.lt_iff_toNat_lt.mp hn
        exact ⟨.int64 _, ⟨by omega, by omega⟩, congrArg some (toInt_complement hn)⟩
      · cases hy
    | any => exact absurd rfl hform
    | uint64 | uint32 | bool | bytes | text | null => cases hy

/-- A type that keeps nothing but a scalar has a shape without a tag that keeps no bytes. -/
theorem resolve_of_form (c : Catalog) (ht : t.form? = some form) : ∃ s p, c.resolve t = .ok s ∧
    s.kind = .scalar p ∧ s.tag = none ∧ s.preserveRaw = false := by
  cases t with
  | bool | uint64 | uint32 | int64 | text | bytes | null => exact ⟨_, _, rfl, rfl, rfl, rfl⟩
  | _ => cases ht

theorem form?_ne_any (ht : t.form? = some form) : form ≠ .any := by
  rintro rfl
  cases t <;> cases ht

/-- **Every integer in the range of a form is an integer of the kind it is written as**, if there is
    a head for it at all. -/
theorem exists_integer (ht : t.form? = some form) (hs : c.resolve t = .ok s)
    (hk : s.kind = .scalar p) (hz : form.Range z) (hbound : wireArgument z < 2 ^ 64) :
    ∃ x, form.Holds x ∧ x.Integer p z := by
  have hnumber : 0 ≤ z → ((UInt64.ofNat z.toNat).toNat : Int) = z := by
    intro hpos
    rw [wireArgument, if_neg (not_lt.mpr hpos)] at hbound
    rw [UInt64.toNat_ofNat_of_lt' hbound, Int.toNat_of_nonneg hpos]
  cases t with
  | int64 =>
    cases ht
    cases hs
    cases hk
    have hsame : (Int64.ofInt z).toInt = z :=
      Int64.toInt_ofInt_of_le hz.1 (Int.lt_add_one_iff.mpr hz.2)
    have hx := Scalar.Integer.signed (Int64.ofInt z)
    rw [hsame] at hx
    exact ⟨_, .int64 _, hx⟩
  | uint64 =>
    cases ht
    cases hs
    cases hk
    have hx := Scalar.Integer.unsigned (UInt64.ofNat z.toNat)
    rw [hnumber hz] at hx
    exact ⟨_, .uint64 _, hx⟩
  | uint32 =>
    cases ht
    cases hs
    cases hk
    have hx := Scalar.Integer.unsigned (UInt64.ofNat z.toNat)
    have hsame := hnumber hz.1
    rw [hsame] at hx
    have hsmall : UInt64.ofNat z.toNat < 0x100000000 := by
      rw [UInt64.lt_iff_toNat_lt]
      show (UInt64.ofNat z.toNat).toNat < 2 ^ 32
      have := hz.2
      omega
    exact ⟨_, .uint32 hsmall, hx⟩
  | bool | text | bytes | null =>
    cases ht
    exact hz.elim
  | _ => cases ht

/-- **A type takes in the integers of its range, whatever the width of the head**, each as it is. -/
theorem decode_integer (c : Catalog) (ht : t.form? = some form) (hh : h.Spelled front)
    (hz : h.integer? = some z) (ho : 0 < o.maxDepth) :
    ((∃ v, (c.codec.decode t front o).result = .ok v) ↔ form.Range z) ∧
      ∀ v, (c.codec.decode t front o).result = .ok v → ∃ x, v = .ofScalar t x ∧
        x.integer? = some z := by
  obtain ⟨hm, n, ha, hn⟩ := Head.integer?_eq_some.mp hz
  obtain ⟨depth, hdepth⟩ := Nat.exists_eq_add_one.mpr ho
  obtain ⟨s, p, hs, hk, htag, hraw⟩ := resolve_of_form c ht
  have hplain : h.major = .unsigned ∨ h.major = .negative ∨ h.major = .simple := by
    rw [hm, signMajor]
    split_ifs
    · exact .inr (.inl rfl)
    · exact .inl rfl
  have hitem : IsItem front := (ItemOf.plain hh (by simp [ha]) hplain).isItem
  have hanswer : ∀ v, (c.codec.decode t front o).result = .ok v →
      form.Range z ∧ ∃ x, v = .ofScalar t x ∧ x.integer? = some z := by
    intro v hv
    have hreads := (decode_item hitem).mp hv
    rw [hdepth] at hreads
    obtain ⟨parts, hat, hv⟩ := (read_plain_iff c o depth hs hk htag hraw).mp hreads.whole
    obtain ⟨x, hcontent, hxz, hwire⟩ := hat.integer hh hz
    rw [construct_of_form ht, Catalog.constructScalar, Parts.scalar] at hv
    obtain ⟨y, hy, hv⟩ := Except.bind_eq_ok hv
    dsimp only at hy
    rw [hcontent] at hy
    obtain ⟨-, hrange, hyz⟩ := take_integer (form?_ne_any ht) hxz hwire hy
    cases hv
    exact ⟨hrange, y, rfl, hyz⟩
  refine ⟨⟨fun h => h.elim fun v hv => (hanswer v hv).1, fun hrange => ?_⟩,
    fun v hv => (hanswer v hv).2⟩
  obtain ⟨x, hholds, hx⟩ := exists_integer ht hs hk hrange (hn ▸ n.toNat_lt)
  obtain ⟨notes, hat⟩ := readAt_integer o depth hs hk hx (.builtIn ht hholds) hh hz none
  rw [tagBefore_none htag, List.nil_append] at hat
  have hreads := Codec.read_reads hat
  rw [← hdepth] at hreads
  exact ⟨_, (decode_item hitem).mpr hreads⟩

end ranges

/-! ## 6. All widths -/

/-- **Integers survive every width.** An integer is refused where its argument exceeds the limit of
    the width that its shape asks for. Otherwise it is written under its sign, in exactly this width
    or, where the width is minimal, in the shortest head there is, and read back as it was under any
    width a shape may ask for. A type takes in the integers of its range, whatever the width of
    their heads, each as it is. -/
theorem Catalog.integers_survive_every_width (c : Catalog) :
    (∀ (t : TypeExpr) (s : Shape) (p : Primitive) (x : Scalar) (z : Int) (notes : Notes)
      (o : EncodeOptions), c.resolve t = .ok s → s.kind = .scalar p → x.Integer p z →
      (s.preserveRaw = true → notes.raw = none) → 0 < o.maxDepth →
      ∃ n : UInt64, n.toNat = wireArgument z ∧
        ((c.codec.encode (.node t (.scalar x) notes) o).result = .error (.integerWidth s.name n) ↔
          s.headWidth.limit < wireArgument z) ∧
        (wireArgument z ≤ s.headWidth.limit → ∃ info front,
          (c.codec.encode (.node t (.scalar x) notes) o).result =
            .ok (s.tagBefore notes.emit ++ front) ∧
          Head.Spelled ⟨if z < 0 then .negative else .unsigned, info, some n⟩ front ∧
          (s.headWidth ≠ .minimal → front.length = 1 + s.headWidth.size) ∧
          (s.headWidth = .minimal → ∀ (h : Head) (front' : Bytes), h.Spelled front' →
            h.integer? = some z → front.length ≤ front'.length) ∧
          ∀ (c' : Catalog) (s' : Shape) (o' : DecodeOptions), c'.resolve t = .ok s' →
            s'.kind = s.kind → s'.tag = s.tag → c'.TakesIn s' x t → 0 < o'.maxDepth →
            ∃ notes', (c'.codec.decode t (s.tagBefore notes.emit ++ front) o').result =
              .ok (.node t (.scalar x) notes'))) ∧
    ∀ (t : TypeExpr) (form : ScalarForm) (h : Head) (front : Bytes) (z : Int) (o : DecodeOptions),
      t.form? = some form → h.Spelled front → h.integer? = some z → 0 < o.maxDepth →
      ((∃ v, (c.codec.decode t front o).result = .ok v) ↔ form.Range z) ∧
        ∀ v, (c.codec.decode t front o).result = .ok v →
          ∃ x, v = .ofScalar t x ∧ x.integer? = some z := by
  refine ⟨?_, fun t form h front z o ht hh hz ho => decode_integer c ht hh hz ho⟩
  intro t s p x z notes o hs hk hx hr ho
  obtain ⟨depth, hdepth⟩ := Nat.exists_eq_add_one.mpr ho
  obtain ⟨n, hn, hwritten⟩ := write_integer c.codec o depth hs hk hx hr
  rw [← hdepth] at hwritten
  have hencode : (c.codec.encode (.node t (.scalar x) notes) o).result = _ := hwritten
  have hfits := fits_iff s.headWidth n
  refine ⟨n, hn, ?_, fun hle => ?_⟩
  · rw [← hn, ← not_le, ← hfits, hencode]
    split_ifs with hfit <;> simp [hfit]
  · rw [← hn] at hle
    have hfit := hfits.mpr hle
    obtain ⟨info, hspelled⟩ := headBytes_spelled (signMajor z) n s.headWidth
    have hz : Head.integer? ⟨signMajor z, info, some n⟩ = some z :=
      Head.integer?_eq_some.mpr ⟨rfl, n, rfl, hn⟩
    rw [if_pos hfit] at hencode
    refine ⟨info, _, hencode, hspelled, fun hw => headBytes_length_of_fits hw hfit, ?_, ?_⟩
    · intro hw h front' hh hz'
      obtain ⟨-, m, ha, hm⟩ := Head.integer?_eq_some.mp hz'
      obtain rfl : n = m := UInt64.toNat_inj.mp (hn.trans hm.symm)
      rw [headBytes_length, hw, HeadWidth.size, Nat.zero_max]
      exact hh.length_ge ha
    · intro c' s' o' hs' hk' htag hin ho'
      obtain ⟨depth', hdepth'⟩ := Nat.exists_eq_add_one.mpr ho'
      have hbefore : s'.tagBefore notes.emit = s.tagBefore notes.emit := by
        unfold Shape.tagBefore
        rw [htag]
      obtain ⟨notes', hat⟩ := readAt_integer o' depth' hs' (hk'.trans hk) hx hin
        hspelled hz notes.emit
      rw [hbefore] at hat
      refine ⟨notes', (Codec.decode_eq_ok).mpr ⟨_, [], (List.append_nil _).symm, .inr rfl, ?_⟩⟩
      rw [hdepth']
      exact Codec.read_reads hat

/-- The least signed integer is written under a head of eight bytes and read back, and a head of
    four bytes does not hold it; one less is no signed integer. -/
theorem Catalog.least_integer_is_read_back :
    let width (name : String) : HeadWidth := if name = "wide" then .eight else .four
    let c : Catalog := {
      declared := fun name => { schema := (Schema.scalar .int).withHeadWidth (width name) }
      printName := fun _ => "type" }
    let least (name : String) : Value := .node (.named name) (.scalar (.int Int64.minValue)) {}
    let bytes : Bytes := [0x3b, 0x7f, 0xff, 0xff, 0xff, 0xff, 0xff, 0xff, 0xff]
    (c.codec.encode (least "wide")).result = .ok bytes ∧
      (∃ notes, (c.codec.decode (.named "wide") bytes).result =
        .ok (.node (.named "wide") (.scalar (.int Int64.minValue)) notes)) ∧
      (c.codec.encode (least "narrow")).result =
        .error (.integerWidth "type" 0x7fffffffffffffff) ∧
      ¬ ∃ v, (c.codec.decode .int64 [0x3b, 0x80, 0, 0, 0, 0, 0, 0, 0]).result = .ok v := by
  intro width c least bytes
  obtain ⟨hwritten, hread⟩ := c.integers_survive_every_width
  have hlimit : wireArgument Int64.minValue.toInt = 0x7fffffffffffffff := by
    rw [← toNat_wireMagnitude]
    decide
  have hwide : (c.codec.encode (least "wide")).result = .ok bytes := rfl
  refine ⟨hwide, ?_, ?_, ?_⟩
  · obtain ⟨n, -, -, h⟩ := hwritten (.named "wide") _ .int (.int Int64.minValue) _ {} {} rfl rfl
      (.signed _) (fun _ => rfl) (by decide)
    obtain ⟨info, front, hok, -, -, -, hback⟩ := h (by rw [hlimit]; decide)
    have hsame : bytes = _ := Except.ok.inj (hwide.symm.trans hok)
    rw [hsame]
    exact hback c _ {} rfl rfl rfl (.declared ⟨rfl, rfl⟩ (.int64 _)) (by decide)
  · obtain ⟨n, hn, h, -⟩ := hwritten (.named "narrow") _ .int (.int Int64.minValue) _ {} {} rfl rfl
      (.signed _) (fun _ => rfl) (by decide)
    rw [hlimit] at hn h
    have hnumber : n = 0x7fffffffffffffff := UInt64.toNat_inj.mp hn
    rw [← hnumber]
    exact h.mpr (by decide)
  · rw [(hread .int64 .int64 ⟨.negative, 27, some 0x8000000000000000⟩ _ _ {} rfl ?_ rfl
      (by decide)).1]
    · exact fun h => absurd h.1 (by decide)
    · exact announced_spelled .negative 0x8000000000000000 (n := 8) (by decide) rfl (by decide)

end CborSchema
