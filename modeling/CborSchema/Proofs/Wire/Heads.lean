import CborSchema.Proofs.Wire.Reads
import CborSchema.Wire.Emit
import Mathlib.Tactic.Ring

/-!
# Heads on the wire

Which bytes spell a head, and what can be told of a head from its first byte.

* `Head.Spelled h bytes` -- the bytes are read as the head `h`, in every context;
* `Head.Spelled.initial` -- the initial byte of a spelled head and its three forms;
* `head_yields` -- reading a head uses up bytes that spell it;
* `headBytes_spelled`, `indefiniteHead_spelled` -- what is written is spelled so.

The context of a reader only names the place in a refusal, so no statement here depends on it.
-/

namespace CborSchema

/-! ## 1. Arguments -/

theorem bigEndian_zero (v : Nat) : bigEndian 0 v = [] := rfl

theorem bigEndian_succ (n v : Nat) :
    bigEndian (n + 1) v = UInt8.ofNat (v / 256 ^ n) :: bigEndian n v := rfl

theorem length_bigEndian (n v : Nat) : (bigEndian n v).length = n := by
  induction n with
  | zero => rfl
  | succ n ih => rw [bigEndian_succ, List.length_cons, ih]

theorem ofBigEndian_cons (b : UInt8) (bytes : Bytes) :
    ofBigEndian (b :: bytes) = b.toNat * 256 ^ bytes.length + ofBigEndian bytes := by
  have acc : ∀ (bs : Bytes) (k : Nat), bs.foldl (fun acc byte => acc * 256 + byte.toNat) k =
      k * 256 ^ bs.length + ofBigEndian bs := by
    intro bs
    induction bs with
    | nil => intro k; simp [ofBigEndian]
    | cons c bs ih =>
      intro k
      have h1 := ih (k * 256 + c.toNat)
      have h2 := ih c.toNat
      simp only [List.foldl_cons, List.length_cons, ofBigEndian, Nat.zero_mul, Nat.zero_add,
        Nat.pow_succ] at h1 h2 ⊢
      rw [h1, h2]
      ring_nf
  have h := acc bytes b.toNat
  simpa [ofBigEndian] using h

/-- **What is written big-endian is read back, as far as the bytes hold it.** -/
theorem ofBigEndian_bigEndian (n v : Nat) : ofBigEndian (bigEndian n v) = v % 256 ^ n := by
  induction n with
  | zero => simp [bigEndian_zero, ofBigEndian, Nat.mod_one]
  | succ n ih =>
    have hb : (UInt8.ofNat (v / 256 ^ n)).toNat = v / 256 ^ n % 256 := by simp
    rw [bigEndian_succ, ofBigEndian_cons, length_bigEndian, ih, hb, Nat.pow_succ, Nat.mod_mul]
    ring

theorem ofBigEndian_lt (bytes : Bytes) : ofBigEndian bytes < 256 ^ bytes.length := by
  induction bytes with
  | nil => simp [ofBigEndian]
  | cons b bytes ih =>
    rw [ofBigEndian_cons, List.length_cons, Nat.pow_succ]
    have hb := b.toNat_lt
    have hle : b.toNat * 256 ^ bytes.length ≤ 255 * 256 ^ bytes.length :=
      Nat.mul_le_mul_right _ (by omega)
    omega

/-- A number that fits one byte has zeros in front. -/
theorem eq_replicate_of_ofBigEndian {n : UInt8} {k : Nat} {argument : Bytes}
    (hl : argument.length = k + 1) (h : ofBigEndian argument = n.toNat) :
    argument = List.replicate k 0 ++ [n] := by
  induction k generalizing argument with
  | zero =>
    obtain ⟨b, rfl⟩ := List.length_eq_one_iff.mp hl
    have hb : b.toNat = n.toNat := by simpa [ofBigEndian] using h
    rw [UInt8.toNat_inj.mp hb]
    rfl
  | succ k ih =>
    obtain ⟨b, argument, rfl⟩ := List.exists_cons_of_length_eq_add_one hl
    have hl : argument.length = k + 1 := by simpa using hl
    have hlt := n.toNat_lt
    rw [ofBigEndian_cons] at h
    have hb : b.toNat = 0 := by
      by_contra hne
      have hpow : 256 ≤ 256 ^ argument.length := Nat.le_pow (by omega)
      have hle : 1 * 256 ^ argument.length ≤ b.toNat * 256 ^ argument.length :=
        Nat.mul_le_mul_right _ (by omega)
      omega
    rw [hb, Nat.zero_mul, Nat.zero_add] at h
    rw [ih hl h, List.replicate_succ, UInt8.toNat_inj.mp (hb.trans UInt8.toNat_zero.symm)]
    rfl

/-- Only the additional infos from 24 to 27 announce an argument. -/
theorem announcedSize_range {info : UInt8} {n : Nat} (h : announcedSize info = some n) :
    24 ≤ info ∧ info ≤ 27 := by
  unfold announcedSize at h
  split at h
  · decide
  · decide
  · decide
  · decide
  · cases h

/-! ## 2. Spelled heads -/

/-- The bytes are read as the head, in every context. -/
def Head.Spelled (h : Head) (bytes : Bytes) : Prop := ∀ context, (Scan.head context).Reads bytes h

namespace Head.Spelled

theorem unique {h h' : Head} {bytes : Bytes} (hs : h.Spelled bytes) (ht : h'.Spelled bytes) :
    h = h' := (hs "").unique (ht "")

theorem short {i : UInt8} (hi : i &&& 0x1f < 24) :
    Head.Spelled ⟨Major.ofInitial i, i &&& 0x1f, some (i &&& 0x1f).toUInt64⟩ [i] := by
  intro context rest
  rw [Scan.head, Scan.bind_of_ok (Scan.byte_reads context i rest), if_pos hi]
  rfl

theorem long {i : UInt8} {n : Nat} {argument : Bytes} (hi : announcedSize (i &&& 0x1f) = some n)
    (hn : argument.length = n) :
    Head.Spelled ⟨Major.ofInitial i, i &&& 0x1f, some (UInt64.ofNat (ofBigEndian argument))⟩
      (i :: argument) := by
  intro context rest
  have h24 : ¬ i &&& 0x1f < 24 := UInt8.not_lt.mpr (announcedSize_range hi).1
  have h1 := Scan.byte_reads context i (argument ++ rest)
  have h2 := Scan.take_reads hn context rest
  simp only [List.singleton_append] at h1
  rw [Scan.head, List.cons_append, Scan.bind_of_ok h1]
  simp only [if_neg h24, hi]
  rw [Scan.bind_of_ok h2]
  rfl

theorem opened {i : UInt8} (hi : i &&& 0x1f = 31) (hm : (Major.ofInitial i).hasOpenForm) :
    Head.Spelled ⟨Major.ofInitial i, i &&& 0x1f, none⟩ [i] := by
  intro context rest
  have h24 : ¬ i &&& 0x1f < 24 := by rw [hi]; decide
  have hs : announcedSize (i &&& 0x1f) = none := by rw [hi]; rfl
  rw [Scan.head, Scan.bind_of_ok (Scan.byte_reads context i rest)]
  simp only [if_neg h24, hs, if_pos (And.intro hi hm)]
  rfl

end Head.Spelled

/-- The three forms of a head: the argument in the initial byte, behind it, or none. -/
inductive Head.Form : Head → Bytes → Prop where
  | short {i : UInt8} (hi : i &&& 0x1f < 24) :
      Head.Form ⟨Major.ofInitial i, i &&& 0x1f, some (i &&& 0x1f).toUInt64⟩ [i]
  | long {i : UInt8} {n : Nat} {argument : Bytes} (hi : announcedSize (i &&& 0x1f) = some n)
      (hn : argument.length = n) :
      Head.Form ⟨Major.ofInitial i, i &&& 0x1f, some (UInt64.ofNat (ofBigEndian argument))⟩
        (i :: argument)
  | opened {i : UInt8} (hi : i &&& 0x1f = 31) (hm : (Major.ofInitial i).hasOpenForm) :
      Head.Form ⟨Major.ofInitial i, i &&& 0x1f, none⟩ [i]

theorem Head.Form.spelled {h : Head} {bytes : Bytes} (f : Head.Form h bytes) : h.Spelled bytes := by
  cases f with
  | short hi => exact .short hi
  | long hi hn => exact .long hi hn
  | opened hi hm => exact .opened hi hm

theorem head_forms (context : String) : (Scan.head context).Yields Head.Form := by
  refine (Scan.byte_yields context).bind fun i u hu => ?_
  subst hu
  dsimp only
  split
  · rename_i hi
    exact Scan.Yields.pure (.short hi)
  · split
    · rename_i n hn
      refine (Scan.take_yields n context).bind fun argument v hv => ?_
      obtain ⟨rfl, hl⟩ := hv
      refine Scan.Yields.pure ?_
      simpa using Head.Form.long hn hl
    · split
      · rename_i hi
        exact Scan.Yields.pure (.opened hi.1 hi.2)
      · exact Scan.Yields.fail _

/-- **Reading a head uses up bytes that spell it.** -/
theorem head_yields (context : String) : (Scan.head context).Yields fun h u => h.Spelled u :=
  (head_forms context).mono fun _ _ hu => hu.spelled

/-! ## 3. What the first byte tells -/

namespace Head.Spelled

theorem form {h : Head} {bytes : Bytes} (s : h.Spelled bytes) : Head.Form h bytes := by
  obtain ⟨u, hu, _, hP⟩ := head_forms "" bytes h [] (s "").alone
  rw [List.append_nil] at hu
  exact hu ▸ hP

theorem ne_nil {h : Head} {bytes : Bytes} (s : h.Spelled bytes) : bytes ≠ [] := by
  cases s.form <;> exact List.cons_ne_nil _ _

/-- The major type is in the first byte. -/
theorem head_major {h : Head} {bytes : Bytes} (s : h.Spelled bytes) :
    ∃ i tail, bytes = i :: tail ∧ h.major = Major.ofInitial i := by
  cases s.form <;> exact ⟨_, _, rfl, rfl⟩

/-- **Only the break code starts with the break byte.** -/
theorem startsItem {h : Head} {bytes : Bytes} (s : h.Spelled bytes) (hb : h.isBreak = false) :
    Scan.StartsItem bytes := by
  cases s.form with
  | short hi =>
    refine ⟨_, _, rfl, ?_⟩
    rintro rfl
    exact absurd hi (by decide)
  | long hi =>
    refine ⟨_, _, rfl, ?_⟩
    rintro rfl
    exact absurd (announcedSize_range hi) (by decide)
  | opened hi hm =>
    refine ⟨_, _, rfl, ?_⟩
    rintro rfl
    exact absurd hb (by decide)

/-- **The null byte is a whole head, and stands for null.** -/
theorem eq_null {h : Head} {bytes : Bytes} (s : h.Spelled bytes)
    (hn : bytes.head? = some nullByte) :
    bytes = [nullByte] ∧ h.major = .simple ∧ h.arg = some simpleNull := by
  cases s.form with
  | short hi =>
    rw [List.head?_cons, Option.some.injEq] at hn
    subst hn
    exact ⟨rfl, rfl, rfl⟩
  | long hi =>
    rw [List.head?_cons, Option.some.injEq] at hn
    subst hn
    exact absurd (announcedSize_range hi) (by decide)
  | opened hi =>
    rw [List.head?_cons, Option.some.injEq] at hn
    subst hn
    exact absurd hi (by decide)

/-- Without an argument the major type is one that has an open form. -/
theorem hasOpenForm {h : Head} {bytes : Bytes} (s : h.Spelled bytes) (ha : h.arg = none) :
    h.major.hasOpenForm := by
  cases s.form with
  | short hi => cases ha
  | long hi => cases ha
  | opened hi hm => exact hm

end Head.Spelled

/-! ## 4. Written heads -/

/-- The major type and the additional info are read back off an initial byte. -/
theorem Major.ofInitial_initial (m : Major) {info : UInt8} (h : info < 32) :
    Major.ofInitial (m.initial info) = m ∧ m.initial info &&& 0x1f = info := by
  have all : ∀ b : BitVec 8, b < 32#8 →
      Major.ofInitial (m.initial ⟨b⟩) = m ∧ m.initial ⟨b⟩ &&& 0x1f = ⟨b⟩ := by
    cases m <;> decide
  exact all info.toBitVec h

theorem indefiniteHead_spelled {m : Major} (hm : m.hasOpenForm) :
    Head.Spelled ⟨m, 31, none⟩ (indefiniteHead m) := by
  obtain ⟨h1, h2⟩ := m.ofInitial_initial (show (31 : UInt8) < 32 by decide)
  have := Head.Spelled.opened h2 (by rw [h1]; exact hm)
  rwa [h1, h2] at this

/-- An argument under an additional info that announces its size. -/
theorem announced_spelled (m : Major) (v : UInt64) {info : UInt8} {n : Nat}
    (hi : info < 32) (hn : announcedSize info = some n) (hv : v.toNat < 256 ^ n) :
    Head.Spelled ⟨m, info, some v⟩ (m.initial info :: bigEndian n v.toNat) := by
  obtain ⟨h1, h2⟩ := m.ofInitial_initial hi
  have := Head.Spelled.long (i := m.initial info) (n := n) (by rw [h2]; exact hn)
    (length_bigEndian n v.toNat)
  rw [h1, h2, ofBigEndian_bigEndian, Nat.mod_eq_of_lt hv, UInt64.ofNat_toNat] at this
  exact this

theorem lt_of_argumentSize_le {v : UInt64} {n : Nat} (h : argumentSize v ≤ n) (hn : n ≠ 0) :
    v.toNat < 256 ^ n := by
  have h64 : v.toNat < 256 ^ 8 := v.toNat_lt
  have mono : ∀ k, k ≤ n → 256 ^ k ≤ 256 ^ n := fun k hk => Nat.pow_le_pow_right (by decide) hk
  unfold argumentSize at h
  split at h
  · rename_i hv
    have : v.toNat < 24 := hv
    have := mono 1 (by omega)
    omega
  · split at h
    · rename_i hv
      have : v.toNat < 256 := hv
      have := mono 1 h
      omega
    · split at h
      · rename_i hv
        have : v.toNat < 65536 := hv
        have := mono 2 h
        omega
      · split at h
        · rename_i hv
          have : v.toNat < 4294967296 := hv
          have := mono 4 h
          omega
        · have := mono 8 h
          omega

/-- **A written head spells its major type and its value, whatever width was asked for.** -/
theorem headBytes_spelled (m : Major) (v : UInt64) (w : HeadWidth) :
    ∃ info, Head.Spelled ⟨m, info, some v⟩ (headBytes m v w) := by
  have hle : argumentSize v ≤ max w.size (argumentSize v) := Nat.le_max_right _ _
  unfold headBytes
  split
  · rename_i h0
    have hv : v < 24 := by
      have : argumentSize v = 0 := by omega
      unfold argumentSize at this
      split at this
      · assumption
      · split at this
        · cases this
        · split at this
          · cases this
          · split at this <;> cases this
    have hv' : v.toNat < 24 := hv
    have hb : v.toUInt8.toNat = v.toNat := by
      rw [UInt64.toNat_toUInt8]
      omega
    have hi : v.toUInt8 < 24 := by
      rw [UInt8.lt_iff_toNat_lt, hb]
      exact hv'
    have hsmall : v.toUInt8 < 32 := by
      rw [UInt8.lt_iff_toNat_lt] at hi ⊢
      exact Nat.lt_trans hi (by decide)
    obtain ⟨h1, h2⟩ := m.ofInitial_initial hsmall
    have := Head.Spelled.short (i := m.initial v.toUInt8) (by rw [h2]; exact hi)
    rw [h1, h2] at this
    have e : v.toUInt8.toUInt64 = v := by
      apply UInt64.toNat_inj.mp
      rw [UInt8.toNat_toUInt64, hb]
    exact ⟨_, e ▸ this⟩
  · rename_i h1
    exact ⟨_, announced_spelled m v (by decide) rfl (lt_of_argumentSize_le (h1 ▸ hle) (by decide))⟩
  · rename_i h2
    exact ⟨_, announced_spelled m v (by decide) rfl (lt_of_argumentSize_le (h2 ▸ hle) (by decide))⟩
  · rename_i h4
    exact ⟨_, announced_spelled m v (by decide) rfl (lt_of_argumentSize_le (h4 ▸ hle) (by decide))⟩
  · exact ⟨_, announced_spelled m v (by decide) rfl v.toNat_lt⟩

end CborSchema
