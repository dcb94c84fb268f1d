import CborSchema.Proofs.Wire.Heads

/-!
# Strings on the wire

What the payload of a string looks like behind its head.

* `Chunks m bytes payload` -- the bytes are definite chunks of the major type `m`, and their
  payloads joined are `payload`;
* `Head.Payload h max payload bytes` -- the bytes behind the head `h` hold the payload, of at most
  `max` bytes;
* `payload_yields`, `payload_reads` -- exactly this is read.

The loop over chunks has a turn for each byte that is left. A chunk has a head, so it has at least
one byte, and the turns never run out on bytes that hold chunks (`chunks_reads`).
-/

namespace CborSchema

/-- Definite chunks of one major type, and their payloads joined. -/
inductive Chunks (m : Major) : Bytes → Bytes → Prop where
  | nil : Chunks m [] []
  | cons {h : Head} {n : UInt64} {front part bytes payload : Bytes} (hh : h.Spelled front)
      (hm : h.major = m) (hn : h.arg = some n) (hp : part.length = n.toNat)
      (hc : Chunks m bytes payload) : Chunks m (front ++ (part ++ bytes)) (part ++ payload)

/-- A payload is no longer than the chunks it is joined from. -/
theorem Chunks.payload_le {m : Major} {bytes payload : Bytes} (h : Chunks m bytes payload) :
    payload.length ≤ bytes.length := by
  induction h with
  | nil => exact Nat.le_refl 0
  | cons _ _ _ _ _ ih =>
    simp only [List.length_append]
    omega

/-- The bytes behind the head of a string that hold a payload of at most `max` bytes. -/
inductive Head.Payload (h : Head) (max : UInt64) : Bytes → Bytes → Prop where
  | definite {n : UInt64} {payload : Bytes} (hn : h.arg = some n) (hl : payload.length = n.toNat)
      (hmax : payload.length ≤ max.toNat) : Head.Payload h max payload payload
  | indefinite {bytes payload : Bytes} (hn : h.arg = none) (hc : Chunks h.major bytes payload)
      (hmax : payload.length ≤ max.toNat) : Head.Payload h max payload (bytes ++ [breakByte])

/-- A payload that fits a limit fits a larger one. -/
theorem Head.Payload.mono {h : Head} {max max' : UInt64} {payload bytes : Bytes}
    (hp : h.Payload max payload bytes) (hle : max.toNat ≤ max'.toNat) :
    h.Payload max' payload bytes := by
  cases hp with
  | definite hn hl hmax => exact .definite hn hl (Nat.le_trans hmax hle)
  | indefinite hn hc hmax => exact .indefinite hn hc (Nat.le_trans hmax hle)

theorem Head.Payload.length_le {h : Head} {max : UInt64} {payload bytes : Bytes}
    (hp : h.Payload max payload bytes) : payload.length ≤ max.toNat := by
  cases hp with
  | definite hn hl hmax => exact hmax
  | indefinite hn hc hmax => exact hmax

theorem boundedLength_eq_ok {h : Head} {n max : UInt64} {field : String} {k : Nat}
    (hn : h.arg = some n) :
    h.boundedLength max field = .ok k ↔ n.toNat ≤ max.toNat ∧ k = n.toNat := by
  simp only [Head.boundedLength, hn, Option.getD_some]
  constructor
  · intro e
    split at e
    · cases e
    · rename_i hle
      rw [UInt64.lt_iff_toNat_lt] at hle
      cases e
      exact ⟨by omega, rfl⟩
  · rintro ⟨hle, rfl⟩
    have : ¬ max < n := by
      rw [UInt64.lt_iff_toNat_lt]
      omega
    rw [if_neg this]

namespace Scan

/-! ## Chunks -/

/-- **Chunks up to their break are read with any number of turns above the number of bytes.** -/
theorem chunks_reads {major : Major} {max : UInt64} {bytes payload : Bytes}
    (hc : Chunks major bytes payload) (context : String) {turns total : Nat}
    (hmax : total + payload.length ≤ max.toNat) (ht : bytes.length < turns) :
    (chunks major max context turns total).Reads (bytes ++ [breakByte]) payload := by
  induction hc generalizing turns total with
  | nil =>
    obtain ⟨t, rfl⟩ := Nat.exists_eq_add_of_lt ht
    exact Reads.stop ((closing_reads context).bind (Reads.pure []))
  | cons hh hm hn hp hc ih =>
    rename_i h n front part bytes payload
    obtain ⟨t, rfl⟩ := Nat.exists_eq_add_of_lt ht
    have hfront : 0 < front.length := List.length_pos_iff.mpr hh.ne_nil
    simp only [List.length_append] at hmax ht
    have hchunk : ¬ (h.major ≠ major ∨ h.isIndefinite = true) := by
      simp [hm, Head.isIndefinite, hn]
    have hlen : h.boundedLength max context = .ok part.length :=
      (boundedLength_eq_ok hn).mpr ⟨by omega, hp⟩
    have hfit : ¬ max.toNat < total + part.length := by omega
    have hturns : bytes.length < (front ++ (part ++ bytes)).length + t := by
      simp only [List.length_append]
      omega
    have htotal : total + part.length + payload.length ≤ max.toNat := by omega
    have hrest := ih htotal hturns
    rw [List.append_assoc, List.append_assoc]
    have hitem : StartsItem front :=
      hh.startsItem (by simp [Head.isBreak, Head.isIndefinite, hn])
    refine Reads.go (hitem.append _) ((hh context).bind ?_)
    rw [if_neg hchunk]
    refine Reads.bind (u := []) (Reads.ofExcept hlen) ?_
    rw [if_neg hfit]
    refine (take_reads rfl context).bind ?_
    rw [← List.append_nil (bytes ++ [breakByte])]
    exact Reads.bind hrest (Reads.pure (part ++ payload))

/-- What the loop over chunks reads is chunks and a break. -/
theorem chunks_yields (major : Major) (max : UInt64) (context : String) (turns total : Nat)
    (ht : total ≤ max.toNat) :
    (chunks major max context turns total).Yields fun payload u =>
      ∃ bytes, u = bytes ++ [breakByte] ∧ Chunks major bytes payload ∧
        total + payload.length ≤ max.toNat := by
  induction turns generalizing total with
  | zero => exact Yields.fail _
  | succ turns ih =>
    refine Yields.ifBreak ?_ ?_
    · refine (closing_yields context).bind fun _ u hu => Yields.pure ?_
      subst hu
      exact ⟨by simp, [], rfl, .nil, by simpa using ht⟩
    · refine (head_yields context).bind fun h front hh => ?_
      split
      · exact Yields.fail _
      · rename_i hchunk
        rw [not_or, ne_eq, not_not] at hchunk
        obtain ⟨n, hn⟩ := Option.ne_none_iff_exists'.mp
          (show h.arg ≠ none by simpa [Head.isIndefinite] using hchunk.2)
        refine Yields.bind (P := fun k u => u = [] ∧ k = n.toNat)
          (Yields.ofExcept fun k hk => ⟨rfl, ((boundedLength_eq_ok hn).mp hk).2⟩) fun k u hu => ?_
        obtain ⟨rfl, rfl⟩ := hu
        split
        · exact Yields.fail _
        · rename_i hfit
          refine (take_yields _ context).bind fun part v hv => ?_
          obtain ⟨rfl, hp⟩ := hv
          refine (ih _ (by omega)).bind fun others w hw => Yields.pure ?_
          obtain ⟨bytes, rfl, hc, hl⟩ := hw
          refine ⟨by simp [hh.ne_nil], front ++ (v ++ bytes), by simp,
            .cons hh hchunk.1 hn hp hc, ?_⟩
          simp only [List.length_append]
          omega

/-! ## Payloads -/

theorem payload_definite {h : Head} {n : UInt64} (hn : h.arg = some n) (max : UInt64)
    (context : String) : Scan.payload h max context =
      ofExcept (h.boundedLength max context) >>= fun length => take length context :=
  if_neg (by simp [Head.isIndefinite, hn])

theorem payload_indefinite {h : Head} (hn : h.arg = none) (max : UInt64) (context : String) :
    Scan.payload h max context =
      fun bytes => chunks h.major max context (bytes.length + 1) 0 bytes :=
  if_pos (by simp [Head.isIndefinite, hn])

theorem payload_reads {h : Head} {max : UInt64} {bytes payload : Bytes}
    (hp : h.Payload max payload bytes) (context : String) :
    (Scan.payload h max context).Reads bytes payload := by
  cases hp with
  | definite hn hl hmax =>
    have hlen : h.boundedLength max context = .ok bytes.length :=
      (boundedLength_eq_ok hn).mpr ⟨by omega, hl⟩
    rw [payload_definite hn]
    exact Reads.bind (u := []) (Reads.ofExcept hlen) (take_reads rfl context)
  | indefinite hn hc hmax =>
    rw [payload_indefinite hn]
    intro rest
    exact chunks_reads hc context (by omega) (by simp only [List.length_append]; omega) rest

/-- **The payload behind a head is read off the bytes that hold it, and off no others.** -/
theorem payload_yields (h : Head) (max : UInt64) (context : String) :
    (Scan.payload h max context).Yields (h.Payload max) := by
  refine Yields.of_reads (fun payload u hp => payload_reads hp context)
    fun bytes payload rest hr => ?_
  cases hn : h.arg with
  | none =>
    rw [payload_indefinite hn] at hr
    obtain ⟨u, hu, _, used, rfl, hc, hl⟩ :=
      chunks_yields h.major max context _ 0 (Nat.zero_le _) bytes payload rest hr
    exact ⟨used ++ [breakByte], hu, .indefinite hn hc (by omega)⟩
  | some n =>
    rw [payload_definite hn] at hr
    obtain ⟨k, mid, h1, h2⟩ := bind_eq_ok hr
    obtain ⟨_, rfl, _, rfl, hk⟩ := Yields.ofExcept (P := fun k u => u = [] ∧ _)
      (fun k hk => ⟨rfl, (boundedLength_eq_ok hn).mp hk⟩) bytes k mid h1
    obtain ⟨part, rfl, _, rfl, hl⟩ := take_yields k context _ _ rest h2
    obtain ⟨hle, rfl⟩ := hk
    exact ⟨part, rfl, .definite hn hl (by omega)⟩

end Scan

end CborSchema
