import CborSchema.Proofs.Decode.Alone

/-!
# Decoding is local

A reader looks ahead at tags, nulls and breaks, but what it answers rests on the bytes it used up
and on none behind them. So no input that is accepted whole is the start of another.

* `DecodeOptions.loose`, `DecodeOptions.strict` -- with and without bytes allowed behind the item;
* `Codec.Consumes` -- decoding answers with a value after so many bytes;
* `Codec.consumes_iff` -- these bytes alone are what it read;
* `Codec.decode_local` -- **the bytes behind them may be exchanged, and a strict run is a loose one
  that used up everything.**
-/

namespace CborSchema

open Decoder

/-- The options, with bytes allowed behind the item. -/
def DecodeOptions.loose (o : DecodeOptions) : DecodeOptions := { o with allowTrailing := true }

/-- The options, with no bytes allowed behind the item. -/
def DecodeOptions.strict (o : DecodeOptions) : DecodeOptions := { o with allowTrailing := false }

/-- Decoding the bytes answers with a value after it used up so many of them. -/
def Codec.Consumes (c : Codec) (o : DecodeOptions) (t : TypeExpr) (bytes : Bytes) (v : Value)
    (n : Nat) : Prop :=
  ∃ rest, (c.read o o.maxDepth t bytes).result = .ok (v, rest) ∧ bytes.length = n + rest.length

namespace Codec

variable {c : Codec} {o : DecodeOptions} {t : TypeExpr} {bytes : Bytes} {v : Value} {n : Nat}

/-- **What was used up is what was read**, whatever lies behind it. -/
theorem consumes_iff : c.Consumes o t bytes v n ↔
    n ≤ bytes.length ∧ (c.read o o.maxDepth t).Reads (bytes.take n) v := by
  constructor
  · rintro ⟨rest, hread, hlength⟩
    obtain ⟨used, rfl, hreads, _⟩ := c.sound o o.maxDepth t bytes v rest hread
    have hn : used.length = n := by
      rw [List.length_append] at hlength
      omega
    subst hn
    rw [List.take_left, List.length_append]
    exact ⟨Nat.le_add_right _ _, hreads⟩
  · rintro ⟨hn, hreads⟩
    refine ⟨bytes.drop n, ?_, by rw [List.length_drop]; omega⟩
    have hread := hreads (bytes.drop n)
    rwa [List.take_append_drop] at hread

/-- The bytes behind those used up may be exchanged. -/
theorem Consumes.behind (h : c.Consumes o t bytes v n) (s : Bytes) :
    c.Consumes o t (bytes.take n ++ s) v n := by
  obtain ⟨hn, hreads⟩ := consumes_iff.mp h
  have htake : (bytes.take n).length = n := List.length_take_of_le hn
  refine consumes_iff.mpr ⟨by rw [List.length_append]; omega, ?_⟩
  rwa [List.take_left' htake]

theorem decode_loose : (c.decode t bytes o.loose).result = .ok v ↔
    ∃ n, c.Consumes o.loose t bytes v n := by
  rw [decode_eq_ok]
  constructor
  · rintro ⟨used, rest, rfl, _, hreads⟩
    exact ⟨used.length, rest, hreads rest, List.length_append⟩
  · rintro ⟨n, hconsumes⟩
    obtain ⟨_, hreads⟩ := consumes_iff.mp hconsumes
    exact ⟨bytes.take n, bytes.drop n, (List.take_append_drop n bytes).symm, .inl rfl, hreads⟩

/-- A strict run answers where a loose one uses up everything. -/
theorem decode_strict : (c.decode t bytes o.strict).result = .ok v ↔
    c.Consumes o.loose t bytes v bytes.length := by
  have hlengths : o.strict.SameLengths o.loose := ⟨rfl, rfl⟩
  rw [decode_eq_ok, consumes_iff, List.take_length]
  constructor
  · rintro ⟨used, rest, rfl, htrailing, hreads⟩
    obtain rfl : rest = [] := htrailing.resolve_left Bool.false_ne_true
    rw [List.append_nil]
    exact ⟨Nat.le_refl _, read_reads_sameLengths hlengths hreads⟩
  · rintro ⟨_, hreads⟩
    have hlengths' : o.loose.SameLengths o.strict := ⟨rfl, rfl⟩
    exact ⟨bytes, [], (List.append_nil _).symm, .inr rfl, read_reads_sameLengths hlengths' hreads⟩

/-- **Bytes behind an input that is accepted whole are what a strict run refuses**, and it says how
    many there are. -/
theorem decode_strict_append (h : (c.decode t bytes o.strict).result = .ok v) {s : Bytes}
    (hs : s ≠ []) : (c.decode t (bytes ++ s) o.strict).result =
    .error (.trailingBytes s.length) := by
  obtain ⟨used, rest, rfl, htrailing, hreads⟩ := decode_eq_ok.mp h
  obtain rfl : rest = [] := htrailing.resolve_left Bool.false_ne_true
  have hempty : (o.strict.allowTrailing || s.isEmpty) = false := by
    simpa [DecodeOptions.strict] using hs
  rw [List.append_nil, decode_finish, hreads s]
  show o.strict.finish (v, s) = _
  rw [DecodeOptions.finish, hempty, if_neg Bool.false_ne_true]

theorem decode_loose_append (h : (c.decode t bytes o.strict).result = .ok v) (s : Bytes) :
    (c.decode t (bytes ++ s) o.loose).result = .ok v := by
  have hbehind := (decode_strict.mp h).behind s
  rw [List.take_length] at hbehind
  exact decode_loose.mpr ⟨_, hbehind⟩

/-- **Decoding is local and its language is prefix-free.** A loose run answers where it consumes
    some `n` bytes. Whatever stands behind these, the value is the same, bytes it keeps included,
    and `n` bytes are consumed. A strict run answers where the loose one does and consumes
    everything. What is accepted whole is not accepted with bytes behind it, and there is no other
    value to decode then. -/
theorem decode_local (c : Codec) (o : DecodeOptions) (t : TypeExpr) (bytes : Bytes) (v : Value) :
    ((c.decode t bytes o.loose).result = .ok v ↔ ∃ n, c.Consumes o.loose t bytes v n) ∧
    (∀ n, c.Consumes o.loose t bytes v n → ∀ s,
      c.Consumes o.loose t (bytes.take n ++ s) v n ∧
      (c.decode t (bytes.take n ++ s) o.loose).result = .ok v) ∧
    ((c.decode t bytes o.strict).result = .ok v ↔
      (c.decode t bytes o.loose).result = .ok v ∧
      c.Consumes o.loose t bytes v bytes.length) ∧
    ((c.decode t bytes o.strict).result = .ok v → ∀ s, s ≠ [] →
      (c.decode t (bytes ++ s) o.strict).result = .error (.trailingBytes s.length) ∧
      (c.decode t (bytes ++ s) o.loose).result = .ok v) := by
  refine ⟨decode_loose, fun n hn s => ?_, ?_, fun h s hs => ?_⟩
  · have hbehind := hn.behind s
    exact ⟨hbehind, decode_loose.mpr ⟨n, hbehind⟩⟩
  · refine decode_strict.trans ⟨fun h => ⟨decode_loose.mpr ⟨_, h⟩, h⟩, And.right⟩
  · exact ⟨decode_strict_append h hs, decode_loose_append h s⟩

/-- An open list in front of the byte `07`: three bytes are consumed, a break behind them is not. -/
theorem decode_local_open_list :
    let c : Catalog := { declared := fun _ => {}, printName := fun _ => "list" }
    let v := Value.ofItems .uint64 [.ofScalar .uint64 (.uint 1)]
    c.codec.Consumes ({} : DecodeOptions).loose (.list .uint64) [0x9f, 0x01, 0xff, 0x07] v 3 ∧
    (c.codec.decode (.list .uint64) [0x9f, 0x01, 0xff, 0xff] ({} : DecodeOptions).loose).result =
      .ok v ∧
    (c.codec.decode (.list .uint64) [0x9f, 0x01, 0xff] ({} : DecodeOptions).strict).result = .ok v ∧
    (c.codec.decode (.list .uint64) [0x9f, 0x01, 0xff, 0xff] ({} : DecodeOptions).strict).result =
      .error (.trailingBytes 1) := by
  intro c v
  have hconsumes : c.codec.Consumes ({} : DecodeOptions).loose (.list .uint64)
      [0x9f, 0x01, 0xff, 0x07] v 3 := ⟨[0x07], by cbv, rfl⟩
  obtain ⟨_, hbehind, _, _⟩ := c.codec.decode_local {} (.list .uint64) [0x9f, 0x01, 0xff, 0x07] v
  have hwhole : c.codec.Consumes ({} : DecodeOptions).loose (.list .uint64)
      [0x9f, 0x01, 0xff] v 3 :=
    (hbehind 3 hconsumes []).1
  obtain ⟨hloose, _, hstrict, hmore⟩ := c.codec.decode_local {} (.list .uint64) [0x9f, 0x01, 0xff] v
  have hexact := hstrict.mpr ⟨hloose.mpr ⟨3, hwhole⟩, hwhole⟩
  exact ⟨hconsumes, (hbehind 3 hconsumes [0xff]).2, hexact,
    (hmore hexact [0xff] (List.cons_ne_nil _ _)).1⟩

end Codec

end CborSchema
