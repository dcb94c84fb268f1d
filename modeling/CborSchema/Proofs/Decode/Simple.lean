import CborSchema.Proofs.Decode.Values

/-!
# Truth values and null

A head does not tell a simple value from a float: all that is left of it is the major type and the
argument. So false, true and null are read off five items each, of which the one byte is the only
one that is written.

* `simpleItems` -- the items whose head has a given number; `mem_simpleItems_iff`: there are no
  others;
* `truth_iff`, `null_iff` -- a head stands for a truth value, or null, by its number alone;
* `scalarAt_bool_iff`, `scalarAt_null_iff`, `literalAt_bool_iff` -- so all readers agree on it;
* `readSlot_absent_iff`, `readSlot_present_iff` -- but the slot of a nullable field, which is absent
  on the null byte alone;
* `Catalog.simple_values_at_any_width` -- **what is read as false, true, null and absent.**
-/

namespace CborSchema

open Decoder

/-! ## 1. Items -/

/-- The number of the simple value a truth value is written as. -/
def truthNumber (b : Bool) : UInt8 := if b then 21 else 20

/-- The items whose head has the number of a simple value below 24: in the initial byte, in a byte
    of its own, and as the bits of a float of 16, 32 or 64. -/
def simpleItems (n : UInt8) : List Bytes :=
  [[0xe0 ||| n], [0xf8, n], [0xf9, 0, n], [0xfa, 0, 0, 0, n], [0xfb, 0, 0, 0, 0, 0, 0, 0, n]]

/-- The initial byte of a simple value is its additional info under three set bits. -/
theorem initial_simple {i : UInt8} (h : Major.ofInitial i = .simple) : i = 0xe0 ||| i &&& 0x1f := by
  -- all 256 bytes are looked at
  have all : ∀ b : BitVec 8, Major.ofInitial ⟨b⟩ = .simple →
      (⟨b⟩ : UInt8) = 0xe0 ||| ⟨b⟩ &&& 0x1f := by
    decide
  exact all i.toBitVec h

/-- The initial bytes with room for an argument. -/
theorem initial_simple_long {i : UInt8} {k : Nat} (h : Major.ofInitial i = .simple)
    (hk : announcedSize (i &&& 0x1f) = some k) :
    (i, k) ∈ [((0xf8 : UInt8), 1), (0xf9, 2), (0xfa, 4), (0xfb, 8)] := by
  rw [initial_simple h]
  generalize i &&& 0x1f = info at hk ⊢
  unfold announcedSize at hk
  split at hk
  all_goals cases hk
  all_goals decide

theorem spelled_of_mem {n : UInt8} (hn : n < 24) {u : Bytes} (hu : u ∈ simpleItems n) :
    ∃ h : Head, h.Spelled u ∧ h.major = .simple ∧ h.arg = some n.toUInt64 := by
  have hlong {i : UInt8} {k : Nat} {argument : Bytes} (hm : Major.ofInitial i = .simple)
      (hi : announcedSize (i &&& 0x1f) = some k) (hl : argument.length = k)
      (ha : ofBigEndian argument = n.toNat) :
      ∃ h : Head, h.Spelled (i :: argument) ∧ h.major = .simple ∧ h.arg = some n.toUInt64 :=
    ⟨_, .long hi hl, hm, by rw [ha, UInt64.ofNat_uInt8ToNat]⟩
  simp only [simpleItems, List.mem_cons, List.not_mem_nil, or_false] at hu
  rcases hu with rfl | rfl | rfl | rfl | rfl
  · obtain ⟨hm, hi⟩ :=
      Major.simple.ofInitial_initial (UInt8.lt_trans hn (by decide : (24 : UInt8) < 32))
    exact ⟨_, .short (i := Major.simple.initial n) (by rwa [hi]), hm, by rw [hi]⟩
  all_goals exact hlong rfl rfl rfl (by simp [ofBigEndian])

theorem mem_of_spelled {n : UInt8} {h : Head} {u : Bytes} (hs : h.Spelled u)
    (hm : h.major = .simple) (ha : h.arg = some n.toUInt64) : u ∈ simpleItems n := by
  cases hs.form with
  | short hi =>
    rename_i i
    have hi : i &&& 0x1f = n := UInt8.toUInt64_inj.mp (Option.some.inj ha)
    rw [initial_simple hm, hi]
    exact List.mem_cons_self
  | long hi hl =>
    rename_i i k argument
    have hk := initial_simple_long hm hi
    have hlt := ofBigEndian_lt argument
    have hbits : k ≤ 8 → ofBigEndian argument = n.toNat := by
      intro hle
      have hpow : 256 ^ argument.length ≤ 256 ^ 8 := Nat.pow_le_pow_right (by omega) (hl ▸ hle)
      have hnat := congrArg UInt64.toNat (Option.some.inj ha)
      rwa [UInt64.toNat_ofNat', Nat.mod_eq_of_lt (by omega), UInt8.toNat_toUInt64] at hnat
    simp only [List.mem_cons, Prod.mk.injEq, List.not_mem_nil, or_false] at hk
    rcases hk with ⟨rfl, rfl⟩ | ⟨rfl, rfl⟩ | ⟨rfl, rfl⟩ | ⟨rfl, rfl⟩
    all_goals
      rw [eq_replicate_of_ofBigEndian hl (hbits (by decide))]
      simp [simpleItems]
  | opened hi => cases ha

/-- **The items whose head has the number are these five.** -/
theorem mem_simpleItems_iff {n : UInt8} (hn : n < 24) {u : Bytes} :
    u ∈ simpleItems n ↔ ∃ h : Head, h.Spelled u ∧ h.major = .simple ∧ h.arg = some n.toUInt64 :=
  ⟨spelled_of_mem hn, fun ⟨_, hs, hm, ha⟩ => mem_of_spelled hs hm ha⟩

/-! ## 2. Heads -/

theorem Head.truth_iff {h : Head} {name : String} {b : Bool} :
    h.truth name = .ok b ↔ h.major = .simple ∧ h.arg = some (truthNumber b).toUInt64 := by
  constructor
  · intro hb
    unfold Head.truth at hb
    split at hb
    · rename_i found hm ha
      refine ⟨hm, ha.trans (congrArg some ?_)⟩
      split at hb
      · rename_i hfound
        cases hb
        exact hfound
      · split at hb
        · rename_i hfound
          cases hb
          exact hfound
        · cases hb
    · cases hb
  · rintro ⟨hm, ha⟩
    rw [Head.truth, hm, ha]
    cases b <;> rfl

theorem Head.null_iff {h : Head} {name : String} :
    h.null name = .ok () ↔ h.major = .simple ∧ h.arg = some simpleNull := by
  constructor
  · intro hn
    unfold Head.null at hn
    split at hn
    · rename_i found hm ha
      split at hn
      · rename_i hfound
        exact ⟨hm, by rw [ha, hfound]⟩
      · cases hn
    · cases hn
  · rintro ⟨hm, ha⟩
    rw [Head.null, hm, ha]
    rfl

/-- **A head stands for a truth value where it spells one of the five items.** -/
theorem truth_mem_iff {b : Bool} {u : Bytes} (name : String) :
    (∃ h : Head, h.Spelled u ∧ h.truth name = .ok b) ↔ u ∈ simpleItems (truthNumber b) := by
  have hn : truthNumber b < 24 := by cases b <;> decide
  simp only [Head.truth_iff, mem_simpleItems_iff hn]

theorem null_mem_iff {u : Bytes} (name : String) :
    (∃ h : Head, h.Spelled u ∧ h.null name = .ok ()) ↔ u ∈ simpleItems 22 := by
  simp only [Head.null_iff, mem_simpleItems_iff (by decide : (22 : UInt8) < 24)]
  rfl

/-! ## 3. Readers -/

variable {s : Shape} {r : Reading} {u : Bytes}

/-- On bytes that must be used up entirely a decoder answers with what it reads. -/
theorem Decoder.whole_iff {α : Type} {d : Decoder α} {P : α → Bytes → Prop} (hy : d.Yields P)
    (hr : ∀ a u, P a u → d.Reads u a) {a : α} : (d.whole u).result = .ok a ↔ P a u :=
  ⟨fun h => (hy.whole h).2, fun h => (hr a u h).whole⟩

theorem scalarAt_bool_iff {parts : Parts} : s.ScalarAt r .bool parts u ↔
    ∃ b, u ∈ simpleItems (truthNumber b) ∧
      parts = { name := s.name, content := .scalar (.bool b) } := by
  constructor
  · rintro ⟨hh, hb⟩
    cases hb with
    | bool hb =>
      rename_i b
      rw [List.append_nil]
      exact ⟨b, (truth_mem_iff s.name).mp ⟨_, hh, hb⟩, rfl⟩
  · rintro ⟨b, hu, rfl⟩
    obtain ⟨h, hh, hb⟩ := (truth_mem_iff s.name).mpr hu
    have hat : s.ScalarAt r .bool _ (u ++ []) := .mk hh (.bool hb)
    rwa [List.append_nil] at hat

theorem scalarAt_null_iff {parts : Parts} : s.ScalarAt r .null parts u ↔
    u ∈ simpleItems 22 ∧ parts = { name := s.name, content := .scalar .null } := by
  constructor
  · rintro ⟨hh, hn⟩
    cases hn with
    | null hn =>
      rw [List.append_nil]
      exact ⟨(null_mem_iff s.name).mp ⟨_, hh, hn⟩, rfl⟩
  · rintro ⟨hu, rfl⟩
    obtain ⟨h, hh, hn⟩ := (null_mem_iff s.name).mpr hu
    have hat : s.ScalarAt r .null _ (u ++ []) := .mk hh (.null hn)
    rwa [List.append_nil] at hat

theorem literalAt_bool_iff {name : String} {max : UInt64} {b : Bool} :
    LiteralAt name max (.bool b) u ↔ u ∈ simpleItems (truthNumber b) := by
  constructor
  · rintro ⟨hh, hl⟩
    cases hl with
    | bool hb =>
      rw [List.append_nil]
      exact (truth_mem_iff name).mp ⟨_, hh, hb⟩
  · intro hu
    obtain ⟨h, hh, hb⟩ := (truth_mem_iff name).mpr hu
    have hat : LiteralAt name max (.bool b) (u ++ []) := .mk hh (.bool hb)
    rwa [List.append_nil] at hat

section read

variable (c : Catalog) (o : DecodeOptions) (depth : Nat) {v : Value}

/-- A scalar of a type without a tag that keeps no bytes. -/
theorem read_plain_iff {t : TypeExpr} {p : Primitive} (hs : c.resolve t = .ok s)
    (hk : s.kind = .scalar p) (ht : s.tag = none) (hp : s.preserveRaw = false) :
    ((c.codec.read o (depth + 1) t).whole u).result = .ok v ↔
      ∃ parts, s.ScalarAt (c.codec.reading o depth) p parts u ∧
        c.construct t s { parts with style := { parts.style with tagged := false } } = .ok v := by
  rw [Decoder.whole_iff (Codec.read_yields (c.codec.sound o depth) t) fun _ _ => Codec.read_reads]
  constructor
  · rintro ⟨hs', hkept, hv⟩
    cases Except.ok.inj (hs.symm.trans hs')
    cases hkept with
    | kept hp' =>
      rw [hp] at hp'
      cases hp'
    | dropped _ hi =>
      cases hi with
      | untagged _ hkind =>
        cases hkind with
        | scalar hk' h =>
          cases hk.symm.trans hk'
          exact ⟨_, h, hv⟩
        | list hk' | map hk' | constructor hk' | union hk' => cases hk.symm.trans hk'
      | absent ht' | tagged ht' =>
        rw [ht] at ht'
        cases ht'
  · rintro ⟨parts, h, hv⟩
    exact .mk hs (.dropped hp (.untagged ht (.scalar hk h))) hv

theorem read_bool_iff : ((c.codec.read o (depth + 1) .bool).whole u).result = .ok v ↔
    ∃ b, u ∈ simpleItems (truthNumber b) ∧ v = .ofScalar .bool (.bool b) := by
  rw [read_plain_iff c o depth (t := .bool) rfl rfl rfl rfl]
  constructor
  · rintro ⟨_, hat, hv⟩
    obtain ⟨b, hu, rfl⟩ := scalarAt_bool_iff.mp hat
    cases hv
    exact ⟨b, hu, rfl⟩
  · rintro ⟨b, hu, rfl⟩
    exact ⟨_, scalarAt_bool_iff.mpr ⟨b, hu, rfl⟩, rfl⟩

theorem read_null_iff : ((c.codec.read o (depth + 1) .null).whole u).result = .ok v ↔
    u ∈ simpleItems 22 ∧ v = .ofScalar .null .null := by
  rw [read_plain_iff c o depth (t := .null) rfl rfl rfl rfl]
  constructor
  · rintro ⟨_, hat, hv⟩
    obtain ⟨hu, rfl⟩ := scalarAt_null_iff.mp hat
    cases hv
    exact ⟨hu, rfl⟩
  · rintro ⟨hu, rfl⟩
    exact ⟨_, scalarAt_null_iff.mpr ⟨hu, rfl⟩, rfl⟩

end read

/-! ## 4. Nullable slots -/

theorem readSlot_absent_iff (hr : r.Sound) {name : String} {t : TypeExpr} :
    ((readSlot r name t .nullable).whole u).result = .ok none ↔ u = [nullByte] := by
  rw [Decoder.whole_iff (readSlot_yields hr name t .nullable) fun _ _ => readSlot_reads]
  constructor
  · intro h
    cases h
    rfl
  · rintro rfl
    exact .null rfl

theorem readSlot_present_iff (hr : r.Sound) {name : String} {t : TypeExpr} {v : Value} :
    ((readSlot r name t .nullable).whole u).result = .ok (some v) ↔
      ((r.part t).whole u).result = .ok v ∧ u ≠ [nullByte] := by
  rw [Decoder.whole_iff (readSlot_yields hr name t .nullable) fun _ _ => readSlot_reads,
    Decoder.whole_iff (hr.partAt t) fun _ _ h => h.reads]
  constructor
  · intro h
    cases h with
    | value hv hn => exact ⟨hv, fun hu => hn rfl (by rw [hu]; rfl)⟩
  · rintro ⟨hv, hu⟩
    exact .value hv fun _ hh => hu (hv.item.eq_null hh)

/-! ## 5. All readers -/

/-- **What is read as false, true, null and absent.** A truth value and null are read off the five
    items of their numbers, wherever they stand: as a value of the built-in type, as a scalar of any
    shape of the kind, and as a literal. Only the null byte is absent, so the other four items of
    null are there, in a nullable slot of that type. -/
theorem Catalog.simple_values_at_any_width (c : Catalog) (o : DecodeOptions) (depth : Nat)
    (bytes : Bytes) :
    let r := c.codec.reading o (depth + 1)
    (∀ v, ((r.part .bool).whole bytes).result = .ok v ↔
      ∃ b, bytes ∈ simpleItems (truthNumber b) ∧ v = .ofScalar .bool (.bool b)) ∧
    (∀ v, ((r.part .null).whole bytes).result = .ok v ↔
      bytes ∈ simpleItems 22 ∧ v = .ofScalar .null .null) ∧
    (∀ (s : Shape) parts, ((s.readScalar r .bool).whole bytes).result = .ok parts ↔
      ∃ b, bytes ∈ simpleItems (truthNumber b) ∧
        parts = { name := s.name, content := .scalar (.bool b) }) ∧
    (∀ (s : Shape) parts, ((s.readScalar r .null).whole bytes).result = .ok parts ↔
      bytes ∈ simpleItems 22 ∧ parts = { name := s.name, content := .scalar .null }) ∧
    (∀ name max key b, ((expectLiteral name max key (.bool b)).whole bytes).result = .ok () ↔
      bytes ∈ simpleItems (truthNumber b)) ∧
    (∀ name t, ((readSlot r name t .nullable).whole bytes).result = .ok none ↔ bytes = [0xf6]) ∧
    ∀ name v, ((readSlot r name .null .nullable).whole bytes).result = .ok (some v) ↔
      (bytes ∈ simpleItems 22 ∧ v = .ofScalar .null .null) ∧ bytes ≠ [0xf6] := by
  intro r
  have hr : r.Sound := c.codec.sound o (depth + 1)
  refine ⟨fun v => read_bool_iff c o depth, fun v => read_null_iff c o depth, ?_, ?_, ?_, ?_, ?_⟩
  · intro s parts
    rw [Decoder.whole_iff (readScalar_yields s r .bool) fun _ _ =>
      readScalar_reads, scalarAt_bool_iff]
  · intro s parts
    rw [Decoder.whole_iff (readScalar_yields s r .null) fun _ _ =>
      readScalar_reads, scalarAt_null_iff]
  · intro name max key b
    rw [Decoder.whole_iff (expectLiteral_yields name max key _) fun _ _ => expectLiteral_reads,
      literalAt_bool_iff]
  · exact fun name t => readSlot_absent_iff hr
  · intro name v
    rw [readSlot_present_iff hr]
    exact and_congr_left' (read_null_iff c o depth)

/-- A float of 16 bits is read as false and matches the literal, a float of 64 bits is read as true,
    null in two bytes is read as null, and in a slot that may be null it is not absent. -/
theorem Catalog.float_is_read_as_false :
    let c : Catalog := {
      declared := fun name => { schema :=
        if name = "flag" then Schema.list.withLiteral (.int 0) (.bool false)
        else Schema.list.withValue (.int 0) .null .nullable }
      printName := fun _ => "type" }
    (c.codec.decode .bool [0xf9, 0x00, 0x14]).result = .ok (.ofScalar .bool (.bool false)) ∧
      (c.codec.decode .bool [0xfb, 0, 0, 0, 0, 0, 0, 0, 0x15]).result =
        .ok (.ofScalar .bool (.bool true)) ∧
      (c.codec.decode .null [0xf8, 0x16]).result = .ok (.ofScalar .null .null) ∧
      (c.codec.decode (.named "flag") [0x81, 0xf9, 0x00, 0x14]).result =
        .ok (.node (.named "flag") (.fields []) {}) ∧
      (c.codec.decode (.named "slot") [0x81, 0xf8, 0x16]).result =
        .ok (.node (.named "slot") (.fields [some (.ofScalar .null .null)]) {}) := by
  intro c
  refine ⟨?_, ?_, ?_, ?_, ?_⟩
  all_goals cbv

end CborSchema
