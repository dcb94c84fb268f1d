import CborSchema.Proofs.Decode.Taken
import CborSchema.Proofs.Decode.Unique
import CborSchema.Proofs.Roundtrip.Integers

/-!
# Literals, keys and typed items

Three readers tell integers, texts and truth values from the wire: the one that expects a literal,
the one that looks for the key of a field, and the one that reads a value of a built-in type. Each
has its own way with signs, chunks and malformed text, and all of them mean the same.

* `Literal.value`, `FieldKey.literal` -- a literal as a value of its type, and a key as a literal;
* `Literal.StandsAt` -- the bytes that stand for a literal: an integer by the number its head stands
  for, a text by its payload, a truth value by its five items;
* `literalAt_iff`, `keyAt_iff`, `read_literal_iff` -- **each of the three readers accepts these
  bytes**;
* `expectLiteral_bytes_iff`, `readKeyItem_bytes_iff` -- what is written for a literal or a key is
  matched by it alone;
* `Catalog.literals_are_typed_items` -- **matching agrees with typed decoding.**
-/

namespace CborSchema

open Decoder

/-! ## 1. Literals as values -/

/-- The value of a built-in type that a literal is. -/
def Literal.value : Literal → Value
  | .int n => .ofScalar .int64 (.int n)
  | .text t => .ofScalar .text (.text t)
  | .bool b => .ofScalar .bool (.bool b)

/-- The key of a field as a literal. -/
def FieldKey.literal : FieldKey → Literal
  | .int n => .int n
  | .text t => .text t

/-- The bytes that stand for a literal, with a text of no more than `max` bytes. -/
def Literal.StandsAt (max : UInt64) : Literal → Bytes → Prop
  | .int n, u => ∃ h : Head, h.Spelled u ∧ h.integer? = some n.toInt
  | .text t, u => ∃ (h : Head) (front rest : Bytes), u = front ++ rest ∧ h.Spelled front ∧
      h.major = .text ∧ h.Payload max (textPayload t) rest
  | .bool b, u => u ∈ simpleItems (truthNumber b)

/-- **A head stands for a signed integer under its sign and its magnitude.** -/
theorem integer?_toInt_iff {h : Head} {n : Int64} : h.integer? = some n.toInt ↔
    h.major = (if 0 ≤ n then .unsigned else .negative) ∧ h.arg = some (wireMagnitude n) := by
  rw [Head.integer?_eq_some, signMajor_toInt, ← toNat_wireMagnitude]
  constructor
  · rintro ⟨hm, m, ha, hn⟩
    exact ⟨hm, by rw [ha, UInt64.toNat_inj.mp hn]⟩
  · rintro ⟨hm, ha⟩
    exact ⟨hm, _, ha, rfl⟩

theorem readText_eq_ok {payload : Bytes} {text context : String} :
    readText payload context = .ok text ↔ payload = textPayload text := by
  constructor
  · exact fun h => (textPayload_of_readText h).symm
  · rintro rfl
    exact readText_textPayload text context

/-! ## 2. The reader of literals -/

section literal

variable {name : String} {max : UInt64} {l l' : Literal} {h : Head} {u u' : Bytes}

/-- **What is expected of a literal is what stands for it.** -/
theorem literalAt_iff : LiteralAt name max l u ↔ l.StandsAt max u := by
  cases l with
  | int n =>
    constructor
    · rintro ⟨hh, hl⟩
      cases hl with
      | int hm ha =>
        rw [List.append_nil]
        exact ⟨_, hh, integer?_toInt_iff.mpr ⟨hm, ha⟩⟩
    · rintro ⟨h, hh, hn⟩
      obtain ⟨hm, ha⟩ := integer?_toInt_iff.mp hn
      have hat : LiteralAt name max (.int n) (u ++ []) := .mk hh (.int hm ha)
      rwa [List.append_nil] at hat
  | text t =>
    constructor
    · rintro ⟨hh, hl⟩
      cases hl with
      | text hm hp => exact ⟨_, _, _, rfl, hh, hm, hp⟩
    · rintro ⟨h, front, rest, rfl, hh, hm, hp⟩
      exact .mk hh (.text hm hp)
  | bool b => exact literalAt_bool_iff

theorem LiteralAt.within (hl : LiteralAt name max l u) : l.Within max := by
  rintro t rfl
  obtain ⟨hh, hl⟩ := hl
  cases hl with
  | text hm hp => exact hp.length_le

end literal

/-! ## 3. The reader of keys -/

section key

variable {r : Reading} {k : FieldKey} {u : Bytes}

/-- **What is found in the place of a key is what stands for it as a literal.** -/
theorem keyAt_iff : KeyAt r (.field k) u ↔ k.literal.StandsAt r.options.maxStringLength u := by
  constructor
  · intro h
    generalize hitem : KeyItem.field k = item at h
    cases h with
    | unsigned hh hm hn =>
      split at hitem
      · rename_i hle
        cases hitem
        refine ⟨_, hh, ?_⟩
        rw [toInt_toInt64 (le_maxSigned_iff.mp hle), Head.integer?, hm, hn]
      · cases hitem
    | negative hh hm hn =>
      split at hitem
      · rename_i hle
        cases hitem
        refine ⟨_, hh, ?_⟩
        rw [toInt_complement (le_maxSigned_iff.mp hle), Head.integer?, hm, hn]
      · cases hitem
    | text hh hm hp ht =>
      cases hitem
      rw [readText_eq_ok.mp ht] at hp
      exact ⟨_, _, _, rfl, hh, hm, hp⟩
    | other => cases hitem
  · intro h
    cases k with
    | int n =>
      obtain ⟨h, hh, hz⟩ := h
      obtain ⟨hm, ha⟩ := integer?_toInt_iff.mp hz
      exact .integer hh hm ha
    | text t =>
      obtain ⟨h, front, rest, rfl, hh, hm, hp⟩ := h
      exact .text hh hm hp (readText_textPayload t _)

/-- A text in the place of a key is within the limit that its head announces it in. -/
theorem KeyAt.text_within {item : KeyItem} {h : Head} {n : UInt64} (hk : KeyAt r item u)
    (hs : StartsHead h u) (hm : h.major = .text) (ha : h.arg = some n) :
    n.toNat ≤ r.options.maxStringLength.toNat := by
  cases hk with
  | unsigned hh hm' | negative hh hm' =>
    obtain rfl := hs.unique ⟨_, [], (List.append_nil _).symm, hh⟩
    rw [hm] at hm'
    cases hm'
  | text hh hm' hp =>
    obtain rfl := hs.unique (hh.starts _)
    cases hp with
    | definite hn hl hmax =>
      obtain rfl := Option.some.inj (ha.symm.trans hn)
      rwa [← hl]
    | indefinite hn =>
      rw [ha] at hn
      cases hn
  | other hh hm' =>
    obtain rfl := hs.unique hh
    exact absurd hm hm'.2.2

end key

/-! ## 4. The reader of values -/

section typed

variable {c : Catalog} {o : DecodeOptions} {left : Nat} {u : Bytes} {s : Shape} {r : Reading}

/-- An integer of a shape stands behind a head that stands for one. -/
theorem Shape.ScalarAfter.exists_integer {h : Head} {x : Scalar} {front : Bytes}
    (hx : s.ScalarAfter r h .int x u) (hh : h.Spelled front) : ∃ z, h.integer? = some z := by
  cases hx with
  | int hn =>
    rcases Head.int_plain hn with hm | hm
    · obtain ⟨n, ha⟩ := Option.ne_none_iff_exists'.mp (hh.arg_ne_none (by rw [hm]; rfl))
      exact ⟨n.toNat, by rw [Head.integer?, hm, ha]⟩
    · obtain ⟨n, ha⟩ := Option.ne_none_iff_exists'.mp (hh.arg_ne_none (by rw [hm]; rfl))
      exact ⟨-1 - n.toNat, by rw [Head.integer?, hm, ha]⟩

/-- A built-in type that keeps nothing but a scalar answers with what it takes in behind a head. -/
theorem read_scalar_iff {t : TypeExpr} {form : ScalarForm} {p : Primitive} {x : Scalar}
    (ht : t.form? = some form) (hs : c.resolve t = .ok s) (hk : s.kind = .scalar p)
    (htag : s.tag = none) (hraw : s.preserveRaw = false) :
    ((c.codec.read o (left + 1) t).whole u).result = .ok (.ofScalar t x) ↔
      ∃ (h : Head) (front rest : Bytes) (y : Scalar), u = front ++ rest ∧ h.Spelled front ∧
        s.ScalarAfter (c.codec.reading o left) h p y rest ∧ form.take y = .ok x := by
  rw [read_plain_iff c o left hs hk htag hraw]
  constructor
  · rintro ⟨parts, ⟨hh, hy⟩, hv⟩
    rw [construct_of_form ht] at hv
    obtain ⟨y, x', hcontent, htake, hv⟩ := constructScalar_eq_ok hv
    cases hcontent
    cases hv
    exact ⟨_, _, _, _, rfl, hh, hy, htake⟩
  · rintro ⟨h, front, rest, y, rfl, hh, hy, htake⟩
    refine ⟨_, .mk hh hy, ?_⟩
    rw [construct_of_form ht, Catalog.constructScalar, Parts.scalar]
    dsimp only
    rw [htake]
    rfl

/-- **The reader of values answers with a literal where this stands.** -/
theorem read_literal_iff (c : Catalog) (o : DecodeOptions) (left : Nat) (l : Literal) :
    ((c.codec.read o (left + 1) l.value.type).whole u).result = .ok l.value ↔
      l.StandsAt o.maxStringLength u := by
  cases l with
  | int n =>
    show ((c.codec.read o (left + 1) .int64).whole u).result = .ok (.ofScalar .int64 (.int n)) ↔ _
    rw [read_scalar_iff (t := .int64) rfl rfl rfl rfl rfl]
    constructor
    · rintro ⟨h, front, rest, y, rfl, hh, hy, htake⟩
      obtain ⟨z, hz⟩ := hy.exists_integer hh
      obtain ⟨rfl, hyz, hwire⟩ := hy.integer hz
      obtain ⟨-, -, hn⟩ := take_integer (by decide) hyz hwire htake
      rw [List.append_nil]
      exact ⟨h, hh, hz.trans hn.symm⟩
    · rintro ⟨h, hh, hz⟩
      exact ⟨h, u, [], _, (List.append_nil u).symm, hh, (Scalar.Integer.signed n).after hz,
        take_wire (.int64 n)⟩
  | text t =>
    show ((c.codec.read o (left + 1) .text).whole u).result = .ok (.ofScalar .text (.text t)) ↔ _
    rw [read_scalar_iff (t := .text) rfl rfl rfl rfl rfl]
    constructor
    · rintro ⟨h, front, rest, y, rfl, hh, hy, htake⟩
      cases hy with
      | text hp ht =>
        cases htake
        have hheld := hp.held
        rw [readText_eq_ok.mp ht] at hheld
        exact ⟨h, front, rest, rfl, hh, hp.major, hheld⟩
    · rintro ⟨h, front, rest, rfl, hh, hm, hp⟩
      exact ⟨h, front, rest, _, rfl, hh, .text ⟨hm, rfl, hp, rfl⟩ (readText_textPayload t _), rfl⟩
  | bool b =>
    show ((c.codec.read o (left + 1) .bool).whole u).result = .ok (.ofScalar .bool (.bool b)) ↔ _
    rw [read_bool_iff]
    constructor
    · rintro ⟨b', hu, hv⟩
      cases hv
      exact hu
    · exact fun hu => ⟨b, hu, rfl⟩

end typed

/-! ## 5. Matching -/

section matching

variable {c : Catalog} {o : DecodeOptions} {left : Nat} {bytes rest rest' : Bytes} {name : String}
  {max : UInt64} {key k : FieldKey} {l l' : Literal} {r : Reading}

/-- A decoder answers where its answer stands in front. -/
theorem Decoder.answers_iff {α : Type} {d : Decoder α} {P : α → Bytes → Prop} (hy : d.Yields P)
    (hr : ∀ a u, P a u → d.Reads u a) {a : α} :
    (d bytes).result = .ok (a, rest) ↔ ∃ u, bytes = u ++ rest ∧ P a u := by
  constructor
  · intro h
    obtain ⟨u, hu, _, hP⟩ := hy bytes a rest h
    exact ⟨u, hu, hP⟩
  · rintro ⟨u, rfl, hP⟩
    exact hr a u hP rest

theorem expectLiteral_iff : (expectLiteral name max key l bytes).result = .ok ((), rest) ↔
    ∃ u, bytes = u ++ rest ∧ l.StandsAt max u := by
  rw [Decoder.answers_iff (expectLiteral_yields name max key l) fun _ _ => expectLiteral_reads]
  simp only [literalAt_iff]

theorem readKeyItem_iff : (readKeyItem r bytes).result = .ok (.field k, rest) ↔
    ∃ u, bytes = u ++ rest ∧ k.literal.StandsAt r.options.maxStringLength u := by
  rw [Decoder.answers_iff (readKeyItem_yields r) fun _ _ => readKeyItem_reads]
  simp only [keyAt_iff]

theorem read_value_iff :
    (c.codec.read o (left + 1) l.value.type bytes).result = .ok (l.value, rest) ↔
    ∃ u, bytes = u ++ rest ∧ l.StandsAt o.maxStringLength u := by
  have hy := Codec.read_yields (c.codec.sound o left) l.value.type
  rw [Decoder.answers_iff hy fun _ _ => Codec.read_reads]
  simp only [← read_literal_iff c o left, Decoder.whole_iff hy fun _ _ => Codec.read_reads]

/-- Texts whose length fits a head. -/
def Literal.Countable (l : Literal) : Prop := l.Within 0xffffffffffffffff

/-- **What is written for a literal is matched by no other.** -/
theorem expectLiteral_bytes_iff (hl : l.Countable) :
    (expectLiteral name max key l' (l.bytes ++ rest)).result = .ok ((), rest') ↔
      l' = l ∧ rest' = rest ∧ l.Within max := by
  rw [Decoder.answers_iff (expectLiteral_yields name max key l') fun _ _ => expectLiteral_reads]
  constructor
  · rintro ⟨u, heq, hat⟩
    have hwritten : LiteralAt name 0xffffffffffffffff l l.bytes := l.bytes_at hl
    obtain ⟨rfl, rfl⟩ := hwritten.isItem.cancel hat.isItem heq
    obtain rfl := hwritten.unique hat
    exact ⟨rfl, rfl, hat.within⟩
  · rintro ⟨rfl, rfl, hmax⟩
    exact ⟨l'.bytes, rfl, l'.bytes_at hmax⟩

/-- **What is written for a key is found as this key**, and as nothing else. -/
theorem readKeyItem_bytes_iff (hk : k.literal.Countable) {item : KeyItem} :
    (readKeyItem r (k.bytes ++ rest)).result = .ok (item, rest') ↔
      item = .field k ∧ rest' = rest ∧ k.Within r.options.maxStringLength := by
  constructor
  · intro h
    have hwithin : k.Within r.options.maxStringLength := by
      rintro t rfl
      obtain ⟨u, heq, _, hat⟩ := readKeyItem_yields r _ item rest' h
      obtain ⟨h, n, front, hb, hh, hm, hn, hlen⟩ :=
        stringBytes_spelled .text (Nat.lt_succ_of_le (hk t rfl))
      obtain ⟨h', hstart⟩ := hat.isItem.startsHead
      rw [FieldKey.bytes, textBytes, hb] at heq
      obtain rfl : h' = h := (hstart.append rest').unique (heq ▸ (hh.starts _).append rest)
      rw [hlen]
      exact hat.text_within hstart hm hn
    have hreads := readKeyItem_reads (k.bytes_at hwithin) rest
    rw [h] at hreads
    cases hreads
    exact ⟨rfl, rfl, hwithin⟩
  · rintro ⟨rfl, rfl, hmax⟩
    exact readKeyItem_reads (k.bytes_at hmax) _

/-- **Matching agrees with typed decoding.** Whatever bytes come, and however deep values may still
    nest:

* a literal is accepted exactly if a value of its built-in type is read there and is the literal,
  and the same bytes are left;
* a key is found exactly if a value of its type is read there and is the key, with the same bytes
  left;
* what is written for a literal is matched by this literal, if its text is within the limit, and by
  no other; what is written for a key is found as this key, and as nothing else.

Matching takes no level of nesting itself, so the value is read where one is left. -/
theorem Catalog.literals_are_typed_items (c : Catalog) (left : Nat) :
    (∀ (o : DecodeOptions) name key (l : Literal) bytes rest,
      (expectLiteral name o.maxStringLength key l bytes).result = .ok ((), rest) ↔
        (c.codec.read o (left + 1) l.value.type bytes).result = .ok (l.value, rest)) ∧
    (∀ (r : Reading) (k : FieldKey) bytes rest,
      (readKeyItem r bytes).result = .ok (.field k, rest) ↔
        (c.codec.read r.options (left + 1) k.literal.value.type bytes).result =
          .ok (k.literal.value, rest)) ∧
    (∀ l : Literal, l.Countable → ∀ name max key l' rest rest',
      (expectLiteral name max key l' (l.bytes ++ rest)).result = .ok ((), rest') ↔
        l' = l ∧ rest' = rest ∧ l.Within max) ∧
    ∀ k : FieldKey, k.literal.Countable → ∀ (r : Reading) item rest rest',
      (readKeyItem r (k.bytes ++ rest)).result = .ok (item, rest') ↔
        item = .field k ∧ rest' = rest ∧ k.Within r.options.maxStringLength := by
  refine ⟨fun o name key l bytes rest => ?_, fun r k bytes rest => ?_,
    fun l hl name max key l' rest rest' => expectLiteral_bytes_iff hl,
    fun k hk r item rest rest' => readKeyItem_bytes_iff hk⟩
  · rw [expectLiteral_iff, read_value_iff]
  · rw [readKeyItem_iff, read_value_iff]

end matching

/-- A text in one chunk is read as a text and so found as a key, and what is written for -1 is
    matched by the literal -1 and not by 0. -/
theorem Catalog.chunked_text_is_a_key :
    let c : Catalog :=
      { declared := fun _ => { schema := Schema.list }, printName := fun _ => "type" }
    let r : Reading := c.codec.reading {} 0
    (readKeyItem r [0x7f, 0x61, 0x62, 0xff, 0x00]).result = .ok (.field (.text "b"), [0x00]) ∧
      (expectLiteral "type" 0 (.int 0) (.int (-1)) [0x20, 0x00]).result = .ok ((), [0x00]) ∧
      (expectLiteral "type" 0 (.int 0) (.int 0) [0x20, 0x00]).result ≠ .ok ((), [0x00]) := by
  intro c r
  obtain ⟨_, hkey, hliteral, _⟩ := c.literals_are_typed_items 0
  have hcountable : (Literal.int (-1)).Countable := by
    rintro t h
    cases h
  have hmatched := hliteral _ hcountable "type" 0 (.int 0)
  refine ⟨(hkey r (.text "b") _ _).mpr ?_, (hmatched _ [0x00] _).mpr ⟨rfl, rfl, ?_⟩, fun h => ?_⟩
  · cbv
  · rintro t h
    cases h
  · obtain ⟨h, -⟩ := (hmatched _ [0x00] _).mp h
    exact absurd h (by decide)

end CborSchema
