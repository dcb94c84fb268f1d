import CborSchema.Proofs.Roundtrip.Integers

/-!
# Heads there and back

A head that is written is read back, and a head that is read was written so. Nothing is lost between
the two: the bytes of a head with an argument are told from the major type, the argument and a
width.

* `Head.width`, `Head.Spelled.length_eq` -- a head is one byte and as many as its additional info
  announces;
* `capacity`, `argumentSize_le_iff` -- the size of an argument is the least that holds it;
* `bigEndian_ofBigEndian`, `Major.initial_ofInitial` -- arguments and initial bytes the other way
  around;
* `Head.Spelled.eq_headBytes`, `Head.Spelled.eq_indefiniteHead` -- **what spells a head is what is
  written for it**;
* `head_refuses` -- the initial bytes that no head has;
* `head_codec_is_exact` -- **reading and writing heads are inverse to each other.**
-/

namespace CborSchema

/-! ## 1. Widths -/

/-- The number of argument bytes that the additional info of a head announces. -/
def Head.width (h : Head) : Nat := (announcedSize h.info).getD 0

/-- **A head is one byte and its argument.** -/
theorem Head.Spelled.length_eq {h : Head} {bytes : Bytes} (hs : h.Spelled bytes) :
    bytes.length = 1 + h.width := by
  cases hs.form with
  | short hi =>
    rename_i i
    have hnone : announcedSize (i &&& 0x1f) = none := by
      rw [Option.eq_none_iff_forall_ne_some]
      intro n hn
      exact absurd (announcedSize_range hn).1 (UInt8.not_le.mpr hi)
    rw [width, hnone]
    rfl
  | long hi hn =>
    rw [width, hi, List.length_cons, hn, Nat.add_comm]
    rfl
  | opened hi _ =>
    rw [width, hi]
    rfl

/-- The sizes of an argument. -/
theorem argumentSize_mem (v : UInt64) : argumentSize v ∈ [0, 1, 2, 4, 8] := by
  rw [argumentSize_eq]
  split_ifs <;> simp

/-- How many values so many argument bytes tell apart. Without any there is room beside the major
    type. -/
def capacity : Nat → Nat
  | 0 => 24
  | n + 1 => 256 ^ (n + 1)

/-- **The size of an argument is the least that holds it.** -/
theorem argumentSize_le_iff (v : UInt64) {n : Nat} (hn : n ∈ [0, 1, 2, 4, 8]) :
    argumentSize v ≤ n ↔ v.toNat < capacity n := by
  have hlt := v.toNat_lt
  rw [argumentSize_eq]
  simp only [List.mem_cons, List.not_mem_nil, or_false] at hn
  rcases hn with rfl | rfl | rfl | rfl | rfl
  all_goals
    simp only [capacity]
    split_ifs <;> omega

/-! ## 2. Heads as written -/

theorem bigEndian_add_mul (n k r : Nat) : bigEndian n (k * 256 ^ n + r) = bigEndian n r := by
  induction n generalizing k with
  | zero => rfl
  | succ n ih =>
    have hsplit : k * 256 ^ (n + 1) + r = k * 256 * 256 ^ n + r := by rw [Nat.pow_succ]; ring
    rw [bigEndian_succ, bigEndian_succ, hsplit, ih, Nat.mul_comm (k * 256),
      Nat.mul_add_div (Nat.pow_pos (by decide))]
    congr 1
    apply UInt8.toNat_inj.mp
    simp

/-- **Bytes read as a number are the number written in as many bytes.** -/
theorem bigEndian_ofBigEndian (bytes : Bytes) :
    bigEndian bytes.length (ofBigEndian bytes) = bytes := by
  induction bytes with
  | nil => rfl
  | cons b bytes ih =>
    rw [List.length_cons, bigEndian_succ, ofBigEndian_cons, bigEndian_add_mul, ih, Nat.mul_comm,
      Nat.mul_add_div (Nat.pow_pos (by decide)), Nat.div_eq_of_lt (ofBigEndian_lt bytes)]
    simp

/-- **An initial byte is its major type and its additional info.** -/
theorem Major.initial_ofInitial (i : UInt8) : (Major.ofInitial i).initial (i &&& 0x1f) = i := by
  have all : ∀ b : BitVec 8, (Major.ofInitial ⟨b⟩).initial (⟨b⟩ &&& 0x1f) = ⟨b⟩ := by decide
  exact all i.toBitVec

/-- Every announced size is that of a width, and a value it holds is written in it. -/
theorem headBytes_announced (m : Major) {v : UInt64} {info : UInt8} {n : Nat}
    (hn : announcedSize info = some n) (hv : argumentSize v ≤ n) :
    ∃ w, headBytes m v w = m.initial info :: bigEndian n v.toNat := by
  unfold announcedSize at hn
  split at hn
  · cases hn
    exact ⟨.one, by simp [headBytes, HeadWidth.size, Nat.max_eq_left hv]⟩
  · cases hn
    exact ⟨.two, by simp [headBytes, HeadWidth.size, Nat.max_eq_left hv]⟩
  · cases hn
    exact ⟨.four, by simp [headBytes, HeadWidth.size, Nat.max_eq_left hv]⟩
  · cases hn
    exact ⟨.eight, by simp [headBytes, HeadWidth.size, Nat.max_eq_left hv]⟩
  · cases hn

/-- A value beside the major type is what the minimal width writes. -/
theorem headBytes_beside (m : Major) {info : UInt8} (h : info < 24) :
    headBytes m info.toUInt64 .minimal = [m.initial info] := by
  have hlt : info.toNat < 24 := UInt8.lt_iff_toNat_lt.mp h
  have hsize : argumentSize info.toUInt64 = 0 := by
    rw [argumentSize_eq, UInt8.toNat_toUInt64, if_pos hlt]
  have hback : info.toUInt64.toUInt8 = info := by simp
  rw [headBytes, hsize, hback]
  rfl

/-- **What spells a head with an argument is written for it** in some width. -/
theorem Head.Spelled.eq_headBytes {h : Head} {bytes : Bytes} {v : UInt64} (hs : h.Spelled bytes)
    (ha : h.arg = some v) : ∃ w, bytes = headBytes h.major v w := by
  have hlen := hs.length_ge ha
  cases hs.form with
  | short hi =>
    rename_i i
    obtain rfl := Option.some.inj ha
    refine ⟨.minimal, ?_⟩
    rw [headBytes_beside _ hi, Major.initial_ofInitial]
  | long hi hn =>
    rename_i i n argument
    obtain rfl := Option.some.inj ha
    rw [List.length_cons, hn, Nat.add_comm] at hlen
    obtain ⟨w, hw⟩ := headBytes_announced (Major.ofInitial i) hi (Nat.le_of_add_le_add_right hlen)
    have hsmall : ofBigEndian argument < 2 ^ 64 := by
      have hlt := ofBigEndian_lt argument
      have hle : (256 : Nat) ^ argument.length ≤ 256 ^ 8 := Nat.pow_le_pow_right (by decide) (by
        rw [hn]
        unfold announcedSize at hi
        split at hi <;> cases hi <;> decide)
      omega
    have hargument : (UInt64.ofNat (ofBigEndian argument)).toNat = ofBigEndian argument := by
      rw [UInt64.toNat_ofNat', Nat.mod_eq_of_lt hsmall]
    rw [hargument, Major.initial_ofInitial, ← hn, bigEndian_ofBigEndian] at hw
    exact ⟨w, hw.symm⟩
  | opened hi hm => cases ha

/-- **What spells a head without an argument is written for it.** -/
theorem Head.Spelled.eq_indefiniteHead {h : Head} {bytes : Bytes} (hs : h.Spelled bytes)
    (ha : h.arg = none) : h.info = 31 ∧ bytes = indefiniteHead h.major := by
  cases hs.form with
  | short hi => cases ha
  | long hi hn => cases ha
  | opened hi hm =>
    rename_i i
    refine ⟨hi, ?_⟩
    rw [indefiniteHead, ← hi, Major.initial_ofInitial]

/-! ## 3. Initial bytes without a head -/

theorem Major.hasOpenForm_iff (m : Major) :
    m.hasOpenForm = true ↔ m ∈ [.bytes, .text, .array, .map, .simple] := by
  cases m <;> decide

/-- The initial bytes of none of the three forms. -/
theorem no_form_iff (i : UInt8) : (¬ i &&& 0x1f < 24 ∧ announcedSize (i &&& 0x1f) = none ∧
      ¬ (i &&& 0x1f = 31 ∧ (Major.ofInitial i).hasOpenForm)) ↔
    i &&& 0x1f ∈ [28, 29, 30] ∨
      i &&& 0x1f = 31 ∧ Major.ofInitial i ∈ [.unsigned, .negative, .tag] := by
  have all : ∀ b : BitVec 8, (¬ (⟨b⟩ : UInt8) &&& 0x1f < 24 ∧ announcedSize (⟨b⟩ &&& 0x1f) = none ∧
        ¬ ((⟨b⟩ : UInt8) &&& 0x1f = 31 ∧ (Major.ofInitial ⟨b⟩).hasOpenForm)) ↔
      (⟨b⟩ : UInt8) &&& 0x1f ∈ [28, 29, 30] ∨
        (⟨b⟩ : UInt8) &&& 0x1f = 31 ∧ Major.ofInitial ⟨b⟩ ∈ [.unsigned, .negative, .tag] := by
    decide
  exact all i.toBitVec

/-- **A head is refused for its initial byte** if this has none of the three forms, and never
    else. -/
theorem head_refuses (context : String) (i : UInt8) (rest : Bytes) :
    Scan.head context (i :: rest) = (.error (.invalidInfo (i &&& 0x1f) context), rest) ↔
      i &&& 0x1f ∈ [28, 29, 30] ∨
        i &&& 0x1f = 31 ∧ Major.ofInitial i ∈ [.unsigned, .negative, .tag] := by
  have hbyte : Scan.byte context (i :: rest) = (.ok i, rest) := rfl
  rw [← no_form_iff, Scan.head, Scan.bind_of_ok hbyte]
  by_cases hi : i &&& 0x1f < 24
  · simp [hi]
  · cases hn : announcedSize (i &&& 0x1f) with
    | some n =>
      -- what is missing behind the initial byte is refused as the end of the input
      simp only [hi, if_false, reduceCtorEq, false_and, and_false, iff_false]
      rcases Nat.lt_or_ge rest.length n with hshort | hlong
      · rw [Scan.bind_apply, Scan.take_of_lt hshort]
        simp
      · rw [Scan.bind_of_ok (Scan.take_of_le hlong context)]
        simp
    | none =>
      by_cases ho : i &&& 0x1f = 31 ∧ (Major.ofInitial i).hasOpenForm
      · simp [ho]
      · simp only [hi, ho, if_false, not_false_eq_true, and_self, iff_true]
        rfl

/-! ## 4. There and back -/

/-- The bytes that a head was read from spell it. -/
theorem head_reads_spelled {context : String} {bytes rest : Bytes} {h : Head}
    (hr : Scan.head context bytes = (.ok h, rest)) :
    ∃ front, bytes = front ++ rest ∧ h.Spelled front := by
  obtain ⟨front, hb, _, hs⟩ := head_yields context bytes h rest hr
  exact ⟨front, hb, hs⟩

/-- **Reading and writing heads are inverse to each other.** For every context of a reader:

* what is written for a major type and a value, in whatever width, is read back as these, whatever
  follows; its argument is as wide as the width asked for and the size of the value, whichever is
  larger;
* the size of a value is the least of the five that holds it, and in the minimal width the head is
  the shortest of all that are read as the same major type and value;
* a head that is read with an argument is what is written for its major type and its argument in
  some width; one without is what is written for an indefinite item, under additional info 31 and
  one of five major types;
* an initial byte is refused exactly if its additional info is 28, 29 or 30, or is 31 under a major
  type that has no open form. -/
theorem head_codec_is_exact (context : String) :
    (∀ m v w rest, ∃ info, Scan.head context (headBytes m v w ++ rest) =
      (.ok ⟨m, info, some v⟩, rest) ∧
      Head.width ⟨m, info, some v⟩ = max w.size (argumentSize v) ∧
      (headBytes m v w).length = 1 + max w.size (argumentSize v)) ∧
    (∀ v, argumentSize v ∈ [0, 1, 2, 4, 8] ∧
      ∀ n ∈ [0, 1, 2, 4, 8], argumentSize v ≤ n ↔ v.toNat < capacity n) ∧
    (∀ front rest h v, Scan.head context (front ++ rest) = (.ok h, rest) → h.arg = some v →
      (headBytes h.major v .minimal).length ≤ front.length) ∧
    (∀ bytes rest h v, Scan.head context bytes = (.ok h, rest) → h.arg = some v →
      ∃ w, bytes = headBytes h.major v w ++ rest) ∧
    (∀ bytes rest h, Scan.head context bytes = (.ok h, rest) → h.arg = none →
      h.info = 31 ∧ h.major ∈ [.bytes, .text, .array, .map, .simple] ∧
      bytes = indefiniteHead h.major ++ rest) ∧
    (∀ m ∈ [Major.bytes, .text, .array, .map, .simple], ∀ rest,
      Scan.head context (indefiniteHead m ++ rest) = (.ok ⟨m, 31, none⟩, rest)) ∧
    ∀ i rest, Scan.head context (i :: rest) = (.error (.invalidInfo (i &&& 0x1f) context), rest) ↔
      i &&& 0x1f ∈ [28, 29, 30] ∨
        i &&& 0x1f = 31 ∧ Major.ofInitial i ∈ [.unsigned, .negative, .tag] := by
  refine ⟨fun m v w rest => ?_, fun v => ⟨argumentSize_mem v, fun n hn => argumentSize_le_iff v hn⟩,
    fun front rest h v hr ha => ?_, fun bytes rest h v hr ha => ?_, fun bytes rest h hr ha => ?_,
    fun m hm rest => ?_, head_refuses context⟩
  · obtain ⟨info, hs⟩ := headBytes_spelled m v w
    have hlen := headBytes_length m v w
    exact ⟨info, hs context rest, Nat.add_left_cancel (hs.length_eq.symm.trans hlen), hlen⟩
  · obtain ⟨front', hb, hs⟩ := head_reads_spelled hr
    rw [headBytes_length, List.append_cancel_right hb]
    simpa [HeadWidth.size] using hs.length_ge ha
  · obtain ⟨front, rfl, hs⟩ := head_reads_spelled hr
    obtain ⟨w, hw⟩ := hs.eq_headBytes ha
    exact ⟨w, by rw [hw]⟩
  · obtain ⟨front, rfl, hs⟩ := head_reads_spelled hr
    obtain ⟨hinfo, hfront⟩ := hs.eq_indefiniteHead ha
    exact ⟨hinfo, h.major.hasOpenForm_iff.mp (hs.hasOpenForm ha), by rw [hfront]⟩
  · exact indefiniteHead_spelled (m.hasOpenForm_iff.mpr hm) context rest

/-- The number 5 in two bytes of argument is read back from the three bytes it is written in, no
    shorter than the minimal head, and an integer of indefinite length is refused. -/
theorem five_in_two_bytes :
    headBytes .unsigned 5 .two = [0x19, 0x00, 0x05] ∧
      (∃ info, Scan.head "value" [0x19, 0x00, 0x05, 0xff] =
        (.ok ⟨.unsigned, info, some 5⟩, [0xff]) ∧
        Head.width ⟨.unsigned, info, some 5⟩ = 2) ∧
      (headBytes .unsigned 5 .minimal).length ≤ (headBytes .unsigned 5 .two).length ∧
      Scan.head "value" [0x1f] = (.error (.invalidInfo 31 "value"), []) := by
  obtain ⟨hread, _, hleast, _, _, _, hrefused⟩ := head_codec_is_exact "value"
  obtain ⟨info, hr, hwidth, _⟩ := hread .unsigned 5 .two [0xff]
  refine ⟨rfl, ⟨info, hr, hwidth⟩, ?_, (hrefused 0x1f []).mpr (.inr (by decide))⟩
  exact hleast _ _ ⟨.unsigned, info, some 5⟩ 5 hr rfl

end CborSchema
