import CborSchema.Proofs.Decode.Alone
import CborSchema.Proofs.Encode.Cuts
import CborSchema.Proofs.Raw.Places

/-!
# Spans

The bytes of the item of a value, read and written, and the ones that a type keeps.

* `Catalog.KeepsBytes`, `Catalog.Replays` -- a type that keeps bytes, and a value that is written as
  them;
* `Codec.ReadFrom`, `Codec.WrittenTo` -- bytes as the item of a value, read and written;
  `Codec.asRead`, `Codec.asWritten` -- and with the places of its parts;
* `cut_of_read` -- the item of a value that was read, cut into those of its parts;
* `raw_of_read` -- a value that keeps bytes keeps all of those it was read from, its tag included;
* `written_of_raw` -- a value that kept bytes is written as these.
-/

namespace CborSchema

open Decoder

/-- A type that keeps the bytes its values are read from. -/
def Catalog.KeepsBytes (c : Catalog) (t : TypeExpr) : Prop :=
  ∃ s, c.resolve t = .ok s ∧ s.preserveRaw = true

/-- A value that is written as the bytes it kept. -/
def Catalog.Replays (c : Catalog) (v : Value) : Prop := c.KeepsBytes v.type ∧ v.notes.raw ≠ none

/-- The value is read off these bytes, with that nesting left. -/
def Codec.ReadFrom (c : Codec) (o : DecodeOptions) (depth : Nat) (v : Value) (u : Bytes) : Prop :=
  (c.read o depth v.type).Reads u v

/-- The value is written as these bytes, with that nesting left. -/
def Codec.WrittenTo (c : Codec) (o : EncodeOptions) (depth : Nat) (v : Value) (u : Bytes) : Prop :=
  (c.write o depth v.type v).result = .ok u

/-- How values stand in what was read. -/
def Codec.asRead (c : Codec) (o : DecodeOptions) : Manner where
  item := c.ReadFrom o
  part n s v := s.ReadPlace (c.ReadFrom o n) v

/-- How values stand in what is written. -/
def Codec.asWritten (c : Codec) (o : EncodeOptions) : Manner where
  item := c.WrittenTo o
  part n s v := s.WrittenPlace (c.WrittenTo o n) v

variable {c : Catalog}

/-! ## 1. What was read -/

/-- Nothing is read without nesting left. -/
theorem Codec.not_reads_zero {c : Codec} {o : DecodeOptions} {t : TypeExpr} {u : Bytes}
    {v : Value} : ¬ (c.read o 0 t).Reads u v := by
  intro h
  have hno : (c.read o 0 t).Yields fun _ _ => False :=
    (Codec.shape_yields c t).bind fun s u _ => Yields.fail _
  obtain ⟨_, _, _, hfalse⟩ := hno u v [] h.alone
  exact hfalse

/-- **What is read is read with some nesting left**, and its parts with one level less. -/
theorem Codec.exists_readAt {c : Codec} {o : DecodeOptions} {n : Nat} {t : TypeExpr} {u : Bytes}
    {v : Value} (h : (c.read o n t).Reads u v) : ∃ m, n = m + 1 ∧ c.ReadAt o m t v u := by
  cases n with
  | zero => exact absurd h not_reads_zero
  | succ m => exact ⟨m, rfl, readAt_of_reads (c.sound o m) h⟩

theorem cut_of_read {o : DecodeOptions} {n : Nat} {v : Value} {b : Bytes}
    (h : c.codec.ReadFrom o n v b) :
    ∃ m, n = m + 1 ∧ Cut (c.codec.ReadFrom o m) v.content.parts b := by
  obtain ⟨m, rfl, hat⟩ := Codec.exists_readAt h
  cases hat with
  | mk hs hk hv =>
    obtain ⟨rest, hperm⟩ := (construct_built hv).parts
    have hcut := hk.cut (c.codec.sound o m) fun hkind => check_keys (resolve_check hs).1 hkind
    exact ⟨m, rfl, (hcut.perm hperm).left.mono fun z x hz => hz.reads⟩

/-- **A value that keeps bytes keeps all of those it was read from.** -/
theorem raw_of_read {o : DecodeOptions} {n : Nat} {v : Value} {u : Bytes}
    (h : c.codec.ReadFrom o n v u) (hkeeps : c.KeepsBytes v.type) : v.notes.raw = some u := by
  obtain ⟨s, hs, hp⟩ := hkeeps
  obtain ⟨m, rfl, hat⟩ := Codec.exists_readAt h
  obtain ⟨parts, hk, hv⟩ := hat.keptAt hs
  rw [(construct_built hv).raw (resolve_preserveRaw hs hp)]
  cases hk with
  | kept _ _ => rfl
  | dropped hno _ => rw [hp] at hno; cases hno

/-! ## 2. What is written -/

theorem Codec.not_writes_zero {c : Codec} {o : EncodeOptions} {t : TypeExpr} {v : Value}
    {u : Bytes} : (c.write o 0 t v).result ≠ .ok u := by
  intro h
  obtain ⟨_, _, h⟩ := Codec.reach_bind_eq_ok.mp h
  cases h

/-- **What is written is written with some nesting left**, and its parts with one level less. -/
theorem Codec.exists_writeAs {c : Codec} {o : EncodeOptions} {n : Nat} {t : TypeExpr} {v : Value}
    {u : Bytes} (h : (c.write o n t v).result = .ok u) : ∃ m, n = m + 1 ∧ c.WriteAs o m t v u := by
  cases n with
  | zero => exact absurd h not_writes_zero
  | succ m => exact ⟨m, rfl, write_eq_ok.mp h⟩

/-- A value that kept bytes is written as these. -/
theorem written_of_raw {o : EncodeOptions} {n : Nat} {v : Value} {u : Bytes}
    (hkeeps : c.KeepsBytes v.type) (hr : v.notes.raw = some u) :
    c.codec.WrittenTo o (n + 1) v u := by
  obtain ⟨s, hs, hp⟩ := hkeeps
  exact Codec.write_eq_ok.mpr (.replayed hs hp rfl hr)

end CborSchema
