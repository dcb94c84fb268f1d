import CborSchema.Wire.Item

/-!
# What a scan reads

A scan that answers has used up some bytes in front, and would have answered the same before any
other bytes. This file gives the two notions the rest is stated in, and their rules:

* `Scan.Reads s used a` -- `s` uses up exactly `used` and answers with `a`, whatever follows;
* `Scan.Yields s P` -- whenever `s` answers, it reads bytes in this sense, and `P` holds of the
  answer and of these bytes. The rule for `>>=` (`Yields.bind`) carries the bytes read so far in
  front of those still to be read, so that a proof follows the steps of the scan.

NOT here: a scan that looks ahead without using bytes up (`peek`, `atBreak`) reads nothing in this
sense. Where one occurs, it is taken together with the scan after it.
-/

namespace CborSchema.Scan

variable {α β : Type}

/-- The scan uses up exactly these bytes and answers with `a`, whatever follows. -/
def Reads (s : Scan α) (used : Bytes) (a : α) : Prop :=
  ∀ rest, s (used ++ rest) = (.ok a, rest)

/-- Whenever the scan answers, it reads bytes of which, with the answer, `P` holds. -/
def Yields (s : Scan α) (P : α → Bytes → Prop) : Prop :=
  ∀ bytes a rest, s bytes = (.ok a, rest) → ∃ used, bytes = used ++ rest ∧ s.Reads used a ∧ P a used

/-! ## 1. Running -/

/-- Two steps answer where both do, the second on what the first left. -/
theorem bind_eq_ok {s : Scan α} {f : α → Scan β} {bytes : Bytes} {b : β} {rest : Bytes}
    (h : (s >>= f) bytes = (.ok b, rest)) :
    ∃ a mid, s bytes = (.ok a, mid) ∧ f a mid = (.ok b, rest) := by
  rw [bind_apply] at h
  split at h
  · rename_i a mid hs
    exact ⟨a, mid, hs, h⟩
  · cases h

theorem bind_of_ok {s : Scan α} {f : α → Scan β} {bytes mid : Bytes} {a : α}
    (h : s bytes = (.ok a, mid)) : (s >>= f) bytes = f a mid := by
  rw [bind_apply, h]

/-! ## 2. Reading -/

theorem Reads.pure (a : α) : (Pure.pure a : Scan α).Reads [] a := fun _ => rfl

theorem Reads.ofExcept {r : Except WireError α} {a : α} (h : r = .ok a) :
    (Scan.ofExcept r).Reads [] a := by
  subst h
  exact Reads.pure a

/-- **What two steps read is what the first reads, then what the second reads.** -/
theorem Reads.bind {s : Scan α} {f : α → Scan β} {u v : Bytes} {a : α} {b : β}
    (hs : s.Reads u a) (hf : (f a).Reads v b) : (s >>= f).Reads (u ++ v) b := by
  intro rest
  rw [List.append_assoc, bind_of_ok (hs _), hf rest]

/-- On bytes alone a scan answers with what it reads. -/
theorem Reads.alone {s : Scan α} {u : Bytes} {a : α} (h : s.Reads u a) : s u = (.ok a, []) := by
  simpa using h []

/-- One answer only. -/
theorem Reads.unique {s : Scan α} {u : Bytes} {a b : α} (ha : s.Reads u a) (hb : s.Reads u b) :
    a = b := by
  have h := ha.alone.symm.trans hb.alone
  simpa using h

/-! ## 3. Yielding -/

theorem Yields.mono {s : Scan α} {P Q : α → Bytes → Prop} (h : s.Yields P)
    (hPQ : ∀ a u, P a u → Q a u) : s.Yields Q := by
  intro bytes a rest hr
  obtain ⟨u, hu, hR, hP⟩ := h bytes a rest hr
  exact ⟨u, hu, hR, hPQ a u hP⟩

theorem Yields.pure {P : α → Bytes → Prop} {a : α} (h : P a []) :
    (Pure.pure a : Scan α).Yields P := by
  intro bytes b rest hr
  cases hr
  exact ⟨[], rfl, Reads.pure a, h⟩

theorem Yields.fail {P : α → Bytes → Prop} (e : WireError) : (Scan.fail e : Scan α).Yields P := by
  intro bytes a rest hr
  cases hr

theorem Yields.ofExcept {P : α → Bytes → Prop} {r : Except WireError α}
    (h : ∀ a, r = .ok a → P a []) : (Scan.ofExcept r).Yields P := by
  cases r with
  | ok a => exact Yields.pure (h a rfl)
  | error e => exact Yields.fail e

/-- **Two steps yield what the second yields behind the bytes of the first.** -/
theorem Yields.bind {s : Scan α} {f : α → Scan β} {P : α → Bytes → Prop} {Q : β → Bytes → Prop}
    (hs : s.Yields P) (hf : ∀ a u, P a u → (f a).Yields fun b v => Q b (u ++ v)) :
    (s >>= f).Yields Q := by
  intro bytes b rest hr
  obtain ⟨a, mid, h1, h2⟩ := bind_eq_ok hr
  obtain ⟨u, rfl, hRu, hP⟩ := hs bytes a mid h1
  obtain ⟨v, rfl, hRv, hQ⟩ := hf a u hP mid b rest h2
  exact ⟨u ++ v, (List.append_assoc u v rest).symm, hRu.bind hRv, hQ⟩

/-- What reads the bytes it should yields no more than it does. -/
theorem Yields.of_reads {s : Scan α} {P : α → Bytes → Prop} (h : ∀ a u, P a u → s.Reads u a)
    (hs : ∀ bytes a rest, s bytes = (.ok a, rest) → ∃ used, bytes = used ++ rest ∧ P a used) :
    s.Yields P := by
  intro bytes a rest hr
  obtain ⟨u, hu, hP⟩ := hs bytes a rest hr
  exact ⟨u, hu, h a u hP, hP⟩

/-! ## 4. The smallest pieces -/

theorem byte_reads (context : String) (b : UInt8) : (byte context).Reads [b] b := fun _ => rfl

theorem byte_yields (context : String) : (byte context).Yields fun b u => u = [b] := by
  intro bytes b rest hr
  cases bytes with
  | nil => cases hr
  | cons c bytes =>
    cases hr
    exact ⟨[b], rfl, byte_reads context b, rfl⟩

theorem take_reads {part : Bytes} {n : Nat} (h : part.length = n) (context : String) :
    (take n context).Reads part part := by
  intro rest
  rw [take_of_le (by simp [h])]
  subst h
  simp

theorem take_yields (n : Nat) (context : String) :
    (take n context).Yields fun part u => u = part ∧ part.length = n := by
  intro bytes part rest hr
  rcases Nat.lt_or_ge bytes.length n with h | h
  · rw [take_of_lt h] at hr
    cases hr
  · rw [take_of_le h] at hr
    cases hr
    have hl : (bytes.take n).length = n := by simp [h]
    exact ⟨bytes.take n, (List.take_append_drop n bytes).symm, take_reads hl context, rfl, hl⟩

theorem closing_reads (context : String) : (closing context).Reads [breakByte] () := fun _ => rfl

theorem closing_yields (context : String) :
    (closing context).Yields fun _ u => u = [breakByte] := by
  refine (byte_yields context).bind fun b u hu => ?_
  subst hu
  split
  · rename_i hb
    exact Yields.pure (by rw [hb, List.append_nil])
  · exact Yields.fail _

/-! ## 5. Looking for the break code -/

/-- The bytes start, and not with the break code. -/
def StartsItem (u : Bytes) : Prop := ∃ b tail, u = b :: tail ∧ b ≠ breakByte

theorem StartsItem.ne_nil {u : Bytes} (h : StartsItem u) : u ≠ [] := by
  obtain ⟨b, tail, rfl, _⟩ := h
  exact List.cons_ne_nil b tail

theorem StartsItem.append {u : Bytes} (h : StartsItem u) (v : Bytes) : StartsItem (u ++ v) := by
  obtain ⟨b, tail, rfl, hb⟩ := h
  exact ⟨b, tail ++ v, rfl, hb⟩

theorem Reads.stop {x y : Scan α} {u : Bytes} {a : α} (h : x.Reads (breakByte :: u) a) :
    (atBreak >>= fun b => if b then x else y).Reads (breakByte :: u) a := fun rest => h rest

theorem Reads.go {x y : Scan α} {u : Bytes} {a : α} (hu : StartsItem u) (h : y.Reads u a) :
    (atBreak >>= fun b => if b then x else y).Reads u a := by
  intro rest
  obtain ⟨c, u, rfl, hb⟩ := hu
  have hc : (some c == some breakByte) = false := by simpa using hb
  have := h rest
  show (if some c == some breakByte then x else y) (c :: u ++ rest) = _
  rw [hc]
  exact this

/-- **A choice by whether the break code is next** may be made from the first byte used up, so both
    ways must use up a byte. -/
theorem Yields.ifBreak {x y : Scan α} {P : α → Bytes → Prop}
    (hx : x.Yields fun a u => u ≠ [] ∧ P a u) (hy : y.Yields fun a u => u ≠ [] ∧ P a u) :
    (atBreak >>= fun b => if b then x else y).Yields P := by
  intro bytes a rest hr
  have hr' : (if bytes.head? == some breakByte then x else y) bytes = (.ok a, rest) := hr
  cases hb : bytes.head? == some breakByte with
  | true =>
    rw [hb] at hr'
    obtain ⟨u, rfl, hR, hne, hP⟩ := hx bytes a rest hr'
    obtain ⟨c, u, rfl⟩ := List.exists_cons_of_ne_nil hne
    obtain rfl : c = breakByte := by simpa using hb
    exact ⟨breakByte :: u, rfl, hR.stop, hP⟩
  | false =>
    rw [hb] at hr'
    obtain ⟨u, rfl, hR, hne, hP⟩ := hy bytes a rest hr'
    obtain ⟨c, u, rfl⟩ := List.exists_cons_of_ne_nil hne
    exact ⟨c :: u, rfl, hR.go ⟨c, u, rfl, by simpa using hb⟩, hP⟩

end CborSchema.Scan
