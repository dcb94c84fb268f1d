import CborSchema.Proofs.Guarded.Machine

/-!
# Guarded scans

Strings and whole items, read at a position of a buffer.

* `Guarded.boundedLength`, `Guarded.payload`, `Guarded.skip`, `Guarded.item` -- the guarded runs;
* `Tracks` -- a guarded run ends as a scan does, answered or refused, at the position where the scan
  stopped;
* `Tracks.payload`, `Tracks.item` -- **a guarded run tracks its scan**: no read goes behind the
  buffer, and no argument is missing;
* `Head.Sound` -- only a head of an open form has no argument, and `Guarded.head` reads no other;
* `Tracks.follows` -- what tracks a scan ends as the decoder that the scan is.

A decoder keeps no bytes where it is refused, so `Follows` does not say where a refused run stands.
`Tracks` does: a reader goes on from there.
-/

namespace CborSchema

namespace Guarded

/-! ## 1. Strings -/

/-- The argument of a head as a length, refused beyond a limit. -/
def boundedLength (h : Head) (max : UInt64) (field : String) : GuardedDecoder Nat := do
  let length ← argument h
  if max < length then refuse (.wire (.tooLong field length max)) else pure length.toNat

/-- The chunks of an indefinite string up to its break, joined; `total` bytes came before. -/
def chunks (major : Major) (max : UInt64) (context : String) : Nat → Nat → GuardedDecoder Bytes
  | 0, _ => refuse (.wire (.endOfInput context))
  | turns + 1, total => do
    if ← atBreak then
      closing context
      pure []
    else
      let chunk ← head context
      if chunk.major ≠ major ∨ chunk.isIndefinite then refuse (.wire (.invalidChunk context))
      else
        let length ← boundedLength chunk max context
        if max.toNat < total + length then
          refuse (.wire
            (.tooLong context (UInt64.ofNat (min (total + length) (UInt64.size - 1))) max))
        else
          let part ← take length context
          let others ← chunks major max context turns (total + length)
          pure (part ++ others)

/-- The payload of a string whose head was just read. -/
def payload (h : Head) (max : UInt64) (context : String) : GuardedDecoder Bytes :=
  if h.isIndefinite then do
    let left ← remaining
    chunks h.major max context (left + 1) 0
  else do
    let length ← boundedLength h max context
    take length context

/-! ## 2. Items -/

/-- The same run a number of times. -/
def times : Nat → GuardedDecoder Unit → GuardedDecoder Unit
  | 0, _ => pure ()
  | n + 1, g => do
    g
    times n g

/-- The same run until the break code, which is used up too. -/
def untilBreak (g : GuardedDecoder Unit) : Nat → GuardedDecoder Unit
  | 0 => refuse (.wire (.endOfInput "indefinite item"))
  | turns + 1 => do
    if ← atBreak then closing "indefinite item"
    else
      g
      untilBreak g turns

/-- The same run until the break code, with turns enough for the bytes that are left. -/
def toBreak (g : GuardedDecoder Unit) : GuardedDecoder Unit := do
  let left ← remaining
  untilBreak g (left + 1)

/-- Pass over one item that nests at most the given number of levels, itself included. -/
def skipLevels (max : Nat) : Nat → GuardedDecoder Unit
  | 0 => refuse (.wire (.tooDeep max))
  | levels + 1 => do
    let h ← head "item"
    match h.major, h.arg with
    | .unsigned, _ => pure ()
    | .negative, _ => pure ()
    | .simple, some _ => pure ()
    | .simple, none => refuse (.wire (.strayBreak "item"))
    | .bytes, some length => do let _ ← take length.toNat "string"
    | .text, some length => do let _ ← take length.toNat "string"
    | .bytes, none => do let _ ← payload h (UInt64.ofNat (UInt64.size - 1)) "string"
    | .text, none => do let _ ← payload h (UInt64.ofNat (UInt64.size - 1)) "string"
    | .array, some n => times n.toNat (skipLevels max levels)
    | .array, none => toBreak (skipLevels max levels)
    | .map, some n => times n.toNat do
      skipLevels max levels
      skipLevels max levels
    | .map, none => toBreak do
      skipLevels max levels
      skipLevels max levels
    | .tag, _ => skipLevels max levels

/-- Pass over one item whose parts lie at most `depth` levels below it. -/
def skip (depth : Nat) : GuardedDecoder Unit := skipLevels depth (depth + 1)

/-- The exact bytes of one item whose parts lie at most `depth` levels below it. -/
def item (depth : Nat) : GuardedDecoder Bytes := do
  let p ← spanned (skip depth)
  pure p.2

end Guarded

/-! ## 3. Ending as a scan -/

/-- From every position in a buffer, and at every depth, a guarded run ends as a scan of the bytes
    that are left there: with its answer, or refused for the same reason. In either case it stands
    where the scan stopped, neither before the position at which it began nor behind the buffer, and
    at the same depth. -/
def Tracks {α : Type} (g : GuardedDecoder α) (s : Scan α) : Prop :=
  ∀ (buffer : Bytes) (position depth : Nat), position ≤ buffer.length →
    ∃ (r : Except WireError α) (stop : Nat), position ≤ stop ∧ stop ≤ buffer.length ∧
      s (buffer.drop position) = (r, buffer.drop stop) ∧
      g ⟨⟨buffer, position⟩, depth⟩ =
        (.ofExcept (r.mapError DecodeError.wire), ⟨⟨buffer, stop⟩, depth⟩)

namespace Tracks

variable {α β : Type} {g : GuardedDecoder α} {s : Scan α}

open Guarded

theorem ofExcept (r : Except WireError α) :
    Tracks (Guarded.ofExcept (r.mapError .wire)) (Scan.ofExcept r) := by
  intro buffer position depth hle
  cases r with
  | ok a => exact ⟨.ok a, position, Nat.le_refl _, hle, rfl, rfl⟩
  | error e => exact ⟨.error e, position, Nat.le_refl _, hle, rfl, rfl⟩

theorem pure (a : α) : Tracks (Pure.pure a) (Pure.pure a) := ofExcept (.ok a)

theorem refuse (e : WireError) :
    Tracks (Guarded.refuse (.wire e) : GuardedDecoder α) (Scan.fail e) :=
  ofExcept (.error e)

/-- **Two guarded runs end as two scans**, the second from where the first stopped. -/
theorem bind {f : α → GuardedDecoder β} {k : α → Scan β} (hg : Tracks g s)
    (hf : ∀ a, Tracks (f a) (k a)) : Tracks (g >>= f) (s >>= k) := by
  intro buffer position depth hle
  obtain ⟨r, middle, hfrom, hto, hs, hm⟩ := hg buffer position depth hle
  cases r with
  | ok a =>
    obtain ⟨r, stop, hfrom', hto', hs', hm'⟩ := hf a buffer middle depth hto
    refine ⟨r, stop, Nat.le_trans hfrom hfrom', hto', ?_, ?_⟩
    · rw [Scan.bind_of_ok hs, hs']
    · rw [bind_of_answer hm, hm']
  | error e =>
    refine ⟨.error e, middle, hfrom, hto, ?_, bind_of_refusal hm⟩
    rw [Scan.bind_apply, hs]

/-- How many bytes are left is known, and no more is read. -/
theorem remaining_bind {f : Nat → GuardedDecoder α} {k : Nat → Scan α}
    (hf : ∀ left, Tracks (f left) (k left)) :
    Tracks (remaining >>= f) fun bytes => k bytes.length bytes := by
  intro buffer position depth hle
  obtain ⟨r, stop, hfrom, hto, hs, hm⟩ := hf (buffer.drop position).length buffer position depth hle
  refine ⟨r, stop, hfrom, hto, hs, ?_⟩
  rw [bind_of_answer (remaining_of_le hle), ← hm, List.length_drop]

/-- Looking ahead leaves the position where it is. -/
theorem lookAhead (hg : Tracks g s) : Tracks (Guarded.lookAhead g) s.peek := by
  intro buffer position depth hle
  obtain ⟨r, _, _, _, hs, hm⟩ := hg buffer position depth hle
  refine ⟨r, position, Nat.le_refl _, hle, ?_, ?_⟩
  · rw [Scan.peek, hs]
  · rw [Guarded.lookAhead, hm]

/-! ## 4. Bytes and heads -/

theorem peekByte (context : String) :
    Tracks (Guarded.peekByte context) (Scan.byte context).peek := by
  intro buffer position depth hle
  by_cases hlt : position < buffer.length
  · refine ⟨.ok buffer[position], position, Nat.le_refl _, hle, ?_, peekByte_of_lt hlt context⟩
    rw [List.drop_eq_getElem_cons hlt]
    rfl
  · have hge : buffer.length ≤ position := Nat.le_of_not_lt hlt
    refine ⟨.error (.endOfInput context), position, Nat.le_refl _, hle, ?_,
      peekByte_of_le hge context⟩
    rw [List.drop_eq_nil_of_le hge]
    rfl

theorem byte (context : String) : Tracks (Guarded.byte context) (Scan.byte context) := by
  intro buffer position depth hle
  by_cases hlt : position < buffer.length
  · refine ⟨.ok buffer[position], position + 1, Nat.le_succ _, hlt, ?_,
      bind_of_answer (peekByte_of_lt hlt context)⟩
    rw [List.drop_eq_getElem_cons hlt]
    rfl
  · have hge : buffer.length ≤ position := Nat.le_of_not_lt hlt
    refine ⟨.error (.endOfInput context), position, Nat.le_refl _, hle, ?_,
      bind_of_refusal (peekByte_of_le hge context)⟩
    rw [List.drop_eq_nil_of_le hge]
    rfl

theorem take (n : Nat) (context : String) :
    Tracks (Guarded.take n context) (Scan.take n context) := by
  intro buffer position depth hle
  have hlen : (buffer.drop position).length = buffer.length - position := List.length_drop
  rw [Guarded.take, bind_of_answer (remaining_of_le hle)]
  by_cases hn : buffer.length - position < n
  · rw [if_pos hn, Scan.take_of_lt (by omega) context]
    exact ⟨.error _, position, Nat.le_refl _, hle, rfl, rfl⟩
  · rw [if_neg hn, Scan.take_of_le (by omega) context, List.drop_drop]
    exact ⟨.ok _, position + n, Nat.le_add_right _ _, by omega, rfl, rfl⟩

theorem head (context : String) : Tracks (Guarded.head context) (Scan.head context) := by
  refine (byte context).bind fun initial => ?_
  dsimp only
  split
  · exact pure _
  · cases announcedSize (initial &&& 0x1f) with
    | some n => exact (take n context).bind fun argument => pure _
    | none =>
      dsimp only
      split
      · exact pure _
      · exact refuse _

theorem atBreak : Tracks Guarded.atBreak Scan.atBreak := by
  intro buffer position depth hle
  refine ⟨.ok _, position, Nat.le_refl _, hle, rfl, ?_⟩
  rw [List.head?_drop]
  rfl

theorem closing (context : String) :
    Tracks (Guarded.closing context) (Scan.closing context) := by
  refine (byte context).bind fun b => ?_
  split
  · exact pure ()
  · exact refuse _

/-! ## 5. Strings -/

theorem boundedLength {h : Head} (ha : h.arg ≠ none) (max : UInt64) (field : String) :
    Tracks (Guarded.boundedLength h max field) (Scan.ofExcept (h.boundedLength max field)) := by
  obtain ⟨n, hn⟩ := Option.ne_none_iff_exists'.mp ha
  have hargument : Guarded.argument h = Pure.pure n := by rw [Guarded.argument, hn]
  rw [Guarded.boundedLength, hargument, Head.boundedLength, hn]
  show Tracks (if max < n then _ else _) (Scan.ofExcept (if max < n then _ else _))
  split
  · exact refuse _
  · exact pure _

theorem chunks (major : Major) (max : UInt64) (context : String) (turns total : Nat) :
    Tracks (Guarded.chunks major max context turns total)
      (Scan.chunks major max context turns total) := by
  induction turns generalizing total with
  | zero => exact refuse _
  | succ turns ih =>
    refine atBreak.bind fun b => ?_
    split
    · exact (closing context).bind fun _ => pure []
    · refine (head context).bind fun chunk => ?_
      split
      · exact refuse _
      · rename_i hchunk
        -- a chunk without an argument is refused before its length is asked for
        have ha : chunk.arg ≠ none := by
          intro ha
          exact hchunk (.inr (by rw [Head.isIndefinite, ha]; rfl))
        refine (boundedLength ha max context).bind fun length => ?_
        split
        · exact refuse _
        · refine (take length context).bind fun part => ?_
          exact (ih (total + length)).bind fun others => pure _

/-- **The payload of a string**, whatever head it is read behind. -/
theorem payload (h : Head) (max : UInt64) (context : String) :
    Tracks (Guarded.payload h max context) (Scan.payload h max context) := by
  unfold Guarded.payload
  cases ha : h.arg with
  | none =>
    rw [Scan.payload_indefinite ha, if_pos (by rw [Head.isIndefinite, ha]; rfl)]
    exact remaining_bind fun left => chunks h.major max context (left + 1) 0
  | some n =>
    rw [Scan.payload_definite ha, if_neg (by rw [Head.isIndefinite, ha]; exact Bool.false_ne_true)]
    exact (boundedLength (by simp [ha]) max context).bind fun length => take length context

/-! ## 6. Items -/

section items

variable {g : GuardedDecoder Unit} {s : Scan Unit}

theorem times (hg : Tracks g s) (n : Nat) : Tracks (Guarded.times n g) (Scan.times n s) := by
  induction n with
  | zero => exact pure ()
  | succ n ih => exact hg.bind fun _ => ih

theorem untilBreak (hg : Tracks g s) (turns : Nat) :
    Tracks (Guarded.untilBreak g turns) (Scan.untilBreak s turns) := by
  induction turns with
  | zero => exact refuse _
  | succ turns ih =>
    refine atBreak.bind fun b => ?_
    split
    · exact closing _
    · exact hg.bind fun _ => ih

theorem toBreak (hg : Tracks g s) : Tracks (Guarded.toBreak g) (Scan.toBreak s) :=
  remaining_bind fun left => hg.untilBreak (left + 1)

/-- What a run passes over lies between the two positions. -/
theorem passed (hg : Tracks g s) : Tracks (spanned g >>= fun p => Pure.pure p.2) s.passed := by
  intro buffer position depth hle
  obtain ⟨r, stop, hfrom, hto, hs, hm⟩ := hg buffer position depth hle
  cases r with
  | ok u =>
    have hspan : (buffer.drop position).length - (buffer.drop stop).length = stop - position := by
      simp only [List.length_drop]
      omega
    refine ⟨.ok ((buffer.drop position).take (stop - position)), stop, hfrom, hto, ?_, ?_⟩
    · rw [Scan.passed, hs, ← hspan]
    · have hspanned : spanned g ⟨⟨buffer, position⟩, depth⟩ =
          (.answer (u, (buffer.drop position).take (stop - position)), ⟨⟨buffer, stop⟩, depth⟩) :=
        bind_of_answer hm
      exact bind_of_answer hspanned
  | error e =>
    have hspanned : spanned g ⟨⟨buffer, position⟩, depth⟩ =
        (.refusal (.wire e), ⟨⟨buffer, stop⟩, depth⟩) := bind_of_refusal hm
    refine ⟨.error e, stop, hfrom, hto, ?_, bind_of_refusal hspanned⟩
    rw [Scan.passed, hs]

end items

theorem skipLevels (max levels : Nat) :
    Tracks (Guarded.skipLevels max levels) (Scan.skipLevels max levels) := by
  induction levels with
  | zero => exact refuse _
  | succ levels ih =>
    refine (head "item").bind fun h => ?_
    have hpair : Tracks (Guarded.skipLevels max levels >>= fun _ => Guarded.skipLevels max levels)
        (Scan.skipLevels max levels >>= fun _ => Scan.skipLevels max levels) := ih.bind fun _ => ih
    rcases h with ⟨major, info, arg⟩
    cases major with
    | unsigned => exact pure ()
    | negative => exact pure ()
    | bytes =>
      cases arg with
      | some length => exact (take _ "string").bind fun _ => pure ()
      | none => exact (payload _ _ "string").bind fun _ => pure ()
    | text =>
      cases arg with
      | some length => exact (take _ "string").bind fun _ => pure ()
      | none => exact (payload _ _ "string").bind fun _ => pure ()
    | array =>
      cases arg with
      | some n => exact ih.times _
      | none => exact ih.toBreak
    | map =>
      cases arg with
      | some n => exact hpair.times _
      | none => exact hpair.toBreak
    | tag => exact ih
    | simple =>
      cases arg with
      | some n => exact pure ()
      | none => exact refuse _

theorem skip (depth : Nat) : Tracks (Guarded.skip depth) (Scan.skip depth) :=
  skipLevels depth (depth + 1)

/-- **The bytes of a whole item.** -/
theorem item (depth : Nat) : Tracks (Guarded.item depth) (Scan.item depth) := (skip depth).passed

/-! ## 7. Scans as decoders -/

/-- What tracks a scan ends as the decoder that the scan is, and keeps what is known of the scan's
    answers. -/
theorem follows_with {depth : Nat} {P : α → Prop} (hg : Tracks g s)
    (hP : ∀ bytes a rest, s bytes = (.ok a, rest) → P a) :
    Follows depth (fun a b => a = b ∧ P a) g (liftM s) := by
  intro buffer position hle
  obtain ⟨r, stop, hfrom, hto, hs, hm⟩ := hg buffer position depth hle
  rw [hm]
  cases r with
  | ok a =>
    rw [Decoder.ofScan_eq_ok.mpr hs]
    exact .answer ⟨rfl, hP _ _ _ hs⟩ hfrom hto
  | error e =>
    rw [Decoder.ofScan_of_error hs]
    exact .refusal hfrom hto

/-- **What tracks a scan ends as the decoder that the scan is.** -/
theorem follows {depth : Nat} (hg : Tracks g s) : Follows depth Eq g (liftM s) :=
  (hg.follows_with (P := fun _ => True) fun _ _ _ _ => trivial).mono fun _ _ h => h.1

end Tracks

/-! ## 8. Arguments -/

/-- A head without an argument is one of an open form. -/
def Head.Sound (h : Head) : Prop := h.arg = none → h.major.hasOpenForm = true

theorem Head.Sound.arg_ne_none {h : Head} (hs : h.Sound) (hm : h.major.hasOpenForm = false) :
    h.arg ≠ none := by
  intro ha
  rw [hs ha] at hm
  cases hm

/-- A head that is read lacks its argument only in an open form. -/
theorem Scan.head_sound (context : String) (bytes : Bytes) (h : Head) (rest : Bytes)
    (hread : Scan.head context bytes = (.ok h, rest)) : h.Sound := by
  obtain ⟨_, _, _, hspelled⟩ := head_yields context bytes h rest hread
  exact hspelled.hasOpenForm

namespace Follows

variable {γ δ : Type} {depth : Nat} {S : γ → δ → Prop} {h : Head}

open Guarded

/-- **Heads.** A head that lacks an argument is one of an open form. -/
theorem head (context : String) :
    Follows depth (fun h h' => h = h' ∧ h.Sound) (Guarded.head context)
      (liftM (Scan.head context)) :=
  (Tracks.head context).follows_with (Scan.head_sound context)

/-- Heads that are not used up. -/
theorem peekHead (context : String) :
    Follows depth (fun h h' => h = h' ∧ h.Sound) (Guarded.lookAhead (Guarded.head context))
      (liftM (Scan.head context).peek) := by
  refine (Tracks.head context).lookAhead.follows_with fun bytes h rest hread => ?_
  have hfirst : (Scan.head context bytes).1 = .ok h := congrArg Prod.fst hread
  exact Scan.head_sound context bytes h _ (Prod.ext hfirst rfl)

/-- How many bytes are left is known, and no more is read. -/
theorem remaining_bind {f : Nat → GuardedDecoder γ} {d : Decoder δ}
    (hf : ∀ (buffer : Bytes) (position : Nat), position ≤ buffer.length →
      EndsAs buffer position depth S (d (buffer.drop position)).result
        (f (buffer.length - position) ⟨⟨buffer, position⟩, depth⟩)) :
    Follows depth S (remaining >>= f) d := by
  intro buffer position hle
  rw [bind_of_answer (remaining_of_le hle)]
  exact hf buffer position hle

/-- An argument that is there. -/
theorem argument (ha : h.arg ≠ none) :
    Follows depth Eq (Guarded.argument h) (Pure.pure (h.arg.getD 0)) := by
  obtain ⟨n, hn⟩ := Option.ne_none_iff_exists'.mp ha
  rw [Guarded.argument, hn]
  exact pure rfl

theorem argument_bind {f : UInt64 → GuardedDecoder γ} {d : Decoder δ} (ha : h.arg ≠ none)
    (hf : Follows depth S (f (h.arg.getD 0)) d) : Follows depth S (Guarded.argument h >>= f) d := by
  obtain ⟨n, hn⟩ := Option.ne_none_iff_exists'.mp ha
  rw [hn] at hf
  rw [Guarded.argument, hn]
  exact hf

theorem payload (h : Head) (max : UInt64) (context : String) :
    Follows depth Eq (Guarded.payload h max context) (liftM (Scan.payload h max context)) :=
  (Tracks.payload h max context).follows

end Follows

end CborSchema
