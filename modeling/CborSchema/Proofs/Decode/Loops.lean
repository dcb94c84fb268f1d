import CborSchema.Proofs.Decode.Values

/-!
# Loops end

A loop over elements goes on as long as elements are announced, or until a break. In the definitions
it has turns, so that it ends whatever its step does. Here a loop has none, and ends because its
steps use up bytes.

* `Decoder.Progresses` -- a decoder that uses up a byte whenever it answers;
* `Pending.Loop` -- a loop without turns, one constructor for each way it goes on, with the number
  of steps it takes; `Loop.steps_le`, `Loop.unique` -- these are bounded by the bytes, and there is
  one run;
* `Pending.Halts` -- the loop has a run, and this is what the definition with turns answers;
* `Reading.LoopsEnd`, `Reading.Sound.loopsEnd` -- **every loop of the readers halts**: over items,
  entries, fields, elements that are passed over, the parts of an item that is skipped, and chunks.
-/

namespace CborSchema

open Decoder

variable {α σ : Type}

/-- Whenever the decoder answers, it has used up a byte. -/
def Decoder.Progresses (d : Decoder α) : Prop :=
  ∀ bytes a rest, (d bytes).result = .ok (a, rest) → rest.length < bytes.length

theorem Decoder.Yields.progresses {d : Decoder α} {P : α → Bytes → Prop} (h : d.Yields P)
    (hP : ∀ a u, P a u → u ≠ []) : d.Progresses := by
  intro bytes a rest hr
  obtain ⟨u, rfl, _, hu⟩ := h bytes a rest hr
  have hpos := List.length_pos_iff.mpr (hP a u hu)
  rw [List.length_append]
  omega

/-! ## 1. Loops without turns -/

namespace Pending

/-- An element is due: one more is announced, or no break stands in its place. -/
inductive Due : Pending → Bytes → Pending → Prop where
  | counted {n : Nat} {bytes : Bytes} : Due (counted (n + 1)) bytes (counted n)
  | toBreak {bytes : Bytes} (hb : bytes.head? ≠ some breakByte) : Due toBreak bytes toBreak

/-- A loop that goes on until nothing is due or a step fails, with the number of steps it begins.
    Each step that answers has used up a byte. -/
inductive Loop (step : σ → Decoder σ) :
    Pending → σ → Bytes → Nat → Except DecodeError (σ × Bytes) → Prop where
  | ends {e : Pending} {s : σ} {w rest : Bytes} (he : e.Ends w) :
      Loop step e s (w ++ rest) 0 (.ok (s, rest))
  | fails {e e' : Pending} {s : σ} {bytes : Bytes} {err : DecodeError} (he : e.Due bytes e')
      (h : (step s bytes).result = .error err) : Loop step e s bytes 1 (.error err)
  | goes {e e' : Pending} {s s' : σ} {bytes rest : Bytes} {k : Nat}
      {x : Except DecodeError (σ × Bytes)} (he : e.Due bytes e')
      (h : (step s bytes).result = .ok (s', rest)) (hlt : rest.length < bytes.length)
      (hl : Loop step e' s' rest k x) : Loop step e s bytes (k + 1) x

theorem Due.unique {e e₁ e₂ : Pending} {bytes : Bytes} (h₁ : e.Due bytes e₁) (h₂ : e.Due bytes e₂) :
    e₁ = e₂ := by
  cases h₁ with
  | counted =>
    cases h₂
    rfl
  | toBreak _ =>
    cases h₂
    rfl

/-- Where nothing is due nothing more is read. -/
theorem Ends.not_due {e e' : Pending} {w rest : Bytes} (he : e.Ends w) :
    ¬ e.Due (w ++ rest) e' := by
  intro hdue
  cases he with
  | counted => cases hdue
  | toBreak =>
    cases hdue with
    | toBreak hb => exact hb rfl

variable {step : σ → Decoder σ} {e : Pending} {s : σ} {bytes : Bytes} {k : Nat}
  {x : Except DecodeError (σ × Bytes)}

/-- **Every step but the last uses up a byte**, so there is at most one more than there are
    bytes. -/
theorem Loop.steps_le (h : Loop step e s bytes k x) : k ≤ bytes.length + 1 := by
  induction h with
  | ends he => exact Nat.zero_le _
  | fails he h => exact Nat.le_add_left _ _
  | goes he h hlt hl ih => omega

/-- **A loop has one run.** -/
theorem Loop.unique {k' : Nat} {x' : Except DecodeError (σ × Bytes)} (h : Loop step e s bytes k x)
    (h' : Loop step e s bytes k' x') : k' = k ∧ x' = x := by
  induction h generalizing k' x' with
  | ends he =>
    rename_i w rest
    generalize hb : w ++ rest = b at h'
    cases h' with
    | ends he' =>
      cases he with
      | counted =>
        cases he'
        exact ⟨rfl, by rw [show rest = _ from hb]; rfl⟩
      | toBreak =>
        cases he'
        rw [List.append_cancel_left hb]
        exact ⟨rfl, rfl⟩
    | fails he' _ => exact absurd (hb ▸ he') he.not_due
    | goes he' _ _ _ => exact absurd (hb ▸ he') he.not_due
  | fails he h =>
    cases h' with
    | ends he' => exact absurd he he'.not_due
    | fails _ h' =>
      rw [h, Except.error.injEq] at h'
      exact ⟨rfl, by rw [h']⟩
    | goes _ h' _ _ =>
      rw [h] at h'
      cases h'
  | goes he h _ _ ih =>
    cases h' with
    | ends he' => exact absurd he he'.not_due
    | fails _ h' =>
      rw [h] at h'
      cases h'
    | goes he' h' _ hl' =>
      rw [h, Except.ok.injEq, Prod.mk.injEq] at h'
      obtain ⟨rfl, rfl⟩ := h'
      obtain rfl := he.unique he'
      obtain ⟨rfl, rfl⟩ := ih hl'
      exact ⟨rfl, rfl⟩

/-- The loop has one run, with at most one step more than there are bytes, and ends with the answer
    of `loop`. -/
def Halts (e : Pending) (step : σ → Decoder σ) (loop : σ → Decoder σ) : Prop :=
  ∀ s bytes, ∃ k ≤ bytes.length + 1, ∀ k' x, Loop step e s bytes k' x ↔
    k' = k ∧ x = (loop s bytes).result

/-- A loop that has a run halts. -/
theorem Halts.of_run {loop : σ → Decoder σ}
    (h : ∀ s bytes, ∃ k, Loop step e s bytes k (loop s bytes).result) : e.Halts step loop := by
  intro s bytes
  obtain ⟨k, hk⟩ := h s bytes
  refine ⟨k, hk.steps_le, fun k' x => ⟨hk.unique, ?_⟩⟩
  rintro ⟨rfl, rfl⟩
  exact hk

/-! ## 2. Loops with turns -/

theorem times_run (hp : ∀ s, (step s).Progresses) (n : Nat) (s : σ) (bytes : Bytes) :
    ∃ k, Loop step (counted n) s bytes k (times step n s bytes).result := by
  induction n generalizing s bytes with
  | zero => exact ⟨0, .ends (w := []) .counted⟩
  | succ n ih =>
    cases h : (step s bytes).result with
    | error err =>
      rw [times, bind_of_error h]
      exact ⟨1, .fails .counted h⟩
    | ok p =>
      obtain ⟨s', rest⟩ := p
      obtain ⟨k, hk⟩ := ih s' rest
      rw [times, bind_of_ok h]
      exact ⟨k + 1, .goes .counted h (hp s bytes s' rest h) hk⟩

theorem untilBreak_stop (turns : Nat) (s : σ) (rest : Bytes) :
    (untilBreak step (turns + 1) s (breakByte :: rest)).result = .ok (s, rest) := by
  have hat : Scan.atBreak (breakByte :: rest) = (.ok true, breakByte :: rest) := rfl
  have hclose : Scan.closing "indefinite item" (breakByte :: rest) = (.ok (), rest) := rfl
  rw [untilBreak, bind_of_ok (ofScan_eq_ok.mpr hat), if_pos rfl,
    bind_of_ok (ofScan_eq_ok.mpr hclose)]
  rfl

theorem untilBreak_go (turns : Nat) (s : σ) (hb : bytes.head? ≠ some breakByte) :
    (untilBreak step (turns + 1) s bytes).result =
      ((step s >>= untilBreak step turns) bytes).result := by
  have hat : Scan.atBreak bytes = (.ok false, bytes) := by simp [Scan.atBreak, hb]
  rw [untilBreak, bind_of_ok (ofScan_eq_ok.mpr hat), if_neg Bool.false_ne_true]

/-- Turns above the number of bytes never run out. -/
theorem untilBreak_run (hp : ∀ s, (step s).Progresses) {turns : Nat} (s : σ) (bytes : Bytes)
    (ht : bytes.length < turns) :
    ∃ k, Loop step toBreak s bytes k (untilBreak step turns s bytes).result := by
  induction turns generalizing s bytes with
  | zero => exact absurd ht (Nat.not_lt_zero _)
  | succ turns ih =>
    by_cases hb : bytes.head? = some breakByte
    · obtain ⟨rest, rfl⟩ := List.head?_eq_some_iff.mp hb
      rw [untilBreak_stop]
      exact ⟨0, .ends (w := [breakByte]) .toBreak⟩
    · rw [untilBreak_go turns s hb]
      cases h : (step s bytes).result with
      | error err =>
        rw [bind_of_error h]
        exact ⟨1, .fails (.toBreak hb) h⟩
      | ok p =>
        obtain ⟨s', rest⟩ := p
        have hlt := hp s bytes s' rest h
        obtain ⟨k, hk⟩ := ih s' rest (by omega)
        rw [bind_of_ok h]
        exact ⟨k + 1, .goes (.toBreak hb) h hlt hk⟩

/-- **A loop whose steps use up bytes halts**, and turns are no bound to it. -/
theorem fold_halts (hp : ∀ s, (step s).Progresses) (e : Pending) : e.Halts step (e.fold step) := by
  refine Halts.of_run fun s bytes => ?_
  cases e with
  | counted n => exact times_run hp n s bytes
  | toBreak => exact untilBreak_run hp s bytes (Nat.lt_succ_self _)

end Pending

/-! ## 3. Loops of scans -/

open Pending

theorem Decoder.result_ofScan_bind {β : Type} (s : Scan α) (f : α → Scan β) (bytes : Bytes) :
    ((liftM (s >>= f) : Decoder β) bytes).result =
      ((liftM s >>= fun a => liftM (f a) : Decoder β) bytes).result := by
  cases h : s bytes with
  | mk x rest =>
    cases x with
    | error err =>
      have hbind : (s >>= f) bytes = (.error err, rest) := by rw [Scan.bind_apply, h]
      rw [ofScan_of_error hbind, bind_of_error (ofScan_of_error h)]
    | ok a =>
      rw [bind_of_ok (ofScan_eq_ok.mpr h)]
      show (ofScan (s >>= f) bytes).result = (ofScan (f a) rest).result
      rw [ofScan, ofScan, Scan.bind_of_ok h]

/-- The same scan for each element. -/
theorem result_scan_times (s : Scan Unit) (n : Nat) (bytes : Bytes) :
    ((liftM (Scan.times n s) : Decoder Unit) bytes).result =
      (Decoder.times (fun _ => liftM s) n () bytes).result := by
  induction n generalizing bytes with
  | zero => rfl
  | succ n ih =>
    rw [Scan.times, result_ofScan_bind, Decoder.times]
    cases h : ((liftM s : Decoder Unit) bytes).result with
    | error err => rw [bind_of_error h, bind_of_error h]
    | ok p => rw [bind_of_ok h, bind_of_ok h, ih]

theorem result_scan_untilBreak (s : Scan Unit) (turns : Nat) (bytes : Bytes) :
    ((liftM (Scan.untilBreak s turns) : Decoder Unit) bytes).result =
      (Decoder.untilBreak (fun _ => liftM s) turns () bytes).result := by
  induction turns generalizing bytes with
  | zero => rfl
  | succ turns ih =>
    by_cases hb : bytes.head? = some breakByte
    · obtain ⟨rest, rfl⟩ := List.head?_eq_some_iff.mp hb
      rw [untilBreak_stop]
      rfl
    · have hat : Scan.atBreak bytes = (.ok false, bytes) := by simp [Scan.atBreak, hb]
      rw [untilBreak_go turns () hb, Scan.untilBreak, result_ofScan_bind,
        bind_of_ok (ofScan_eq_ok.mpr hat), if_neg Bool.false_ne_true, result_ofScan_bind]
      cases h : ((liftM s : Decoder Unit) bytes).result with
      | error err => rw [bind_of_error h, bind_of_error h]
      | ok p => rw [bind_of_ok h, bind_of_ok h, ih]

/-- The scan that goes once over each pending element. -/
def Pending.scan (s : Scan Unit) : Pending → Scan Unit
  | counted n => Scan.times n s
  | toBreak => Scan.toBreak s

/-- **A loop of scans halts** where each of them uses up a byte. -/
theorem Pending.scan_halts {s : Scan Unit} (hp : (liftM s : Decoder Unit).Progresses)
    (e : Pending) :
    e.Halts (fun _ : Unit => (liftM s : Decoder Unit)) fun _ => liftM (e.scan s) := by
  refine Halts.of_run fun _ bytes => ?_
  cases e with
  | counted n =>
    obtain ⟨k, hk⟩ := times_run (fun _ => hp) n () bytes
    exact ⟨k, by rwa [scan, result_scan_times]⟩
  | toBreak =>
    obtain ⟨k, hk⟩ := untilBreak_run (fun _ => hp) () bytes (Nat.lt_succ_self _)
    rw [← result_scan_untilBreak] at hk
    exact ⟨k, hk⟩

/-! ## 4. Chunks -/

/-- One chunk of an indefinite string; `total` bytes came before. -/
def Scan.chunk (major : Major) (max : UInt64) (context : String) (total : Nat) : Scan Bytes := do
  let chunk ← head context
  if chunk.major ≠ major ∨ chunk.isIndefinite then fail (.invalidChunk context)
  else
    let length ← ofExcept (chunk.boundedLength max context)
    if max.toNat < total + length then
      fail (.tooLong context (UInt64.ofNat (min (total + length) (UInt64.size - 1))) max)
    else take length context

/-- One chunk more behind those that were joined. -/
def joinChunk (major : Major) (max : UInt64) (context : String) (joined : Bytes) :
    Decoder Bytes := do
  let part ← Scan.chunk major max context joined.length
  pure (joined ++ part)

/-- The chunks up to the break, behind those that were joined. -/
def joinChunks (major : Major) (max : UInt64) (context : String) (joined : Bytes) : Decoder Bytes :=
  fun bytes => (do
    let others ← Scan.chunks major max context (bytes.length + 1) joined.length
    pure (joined ++ others) : Decoder Bytes) bytes

section chunks

variable (major : Major) (max : UInt64) (context : String)

theorem Scan.chunk_yields (total : Nat) :
    (Scan.chunk major max context total).Yields fun _ u => u ≠ [] := by
  refine (head_yields context).bind fun h front hh => ?_
  split
  · exact Scan.Yields.fail _
  · refine Scan.Yields.bind (P := fun _ _ => True) (Scan.Yields.ofExcept fun _ _ => trivial) ?_
    intro length u _
    split
    · exact Scan.Yields.fail _
    · exact (Scan.take_yields length context).mono fun _ v _ => by
        rw [← List.append_assoc]
        simp [hh.ne_nil]

theorem joinChunk_progresses (joined : Bytes) :
    (joinChunk major max context joined).Progresses := by
  have hchunk := Decoder.Yields.scan (Scan.chunk_yields major max context joined.length)
  have hjoin : (joinChunk major max context joined).Yields fun _ u => u ≠ [] :=
    hchunk.bind fun part u hu => Yields.pure (by rwa [List.append_nil])
  exact hjoin.progresses fun _ _ hu => hu

/-- One turn of the loop over chunks. -/
theorem Scan.chunks_go (turns total : Nat) {bytes : Bytes} (hb : bytes.head? ≠ some breakByte) :
    Scan.chunks major max context (turns + 1) total bytes =
      (do
        let part ← Scan.chunk major max context total
        let others ← Scan.chunks major max context turns (total + part.length)
        pure (part ++ others) : Scan Bytes) bytes := by
  have hat : Scan.atBreak bytes = (.ok false, bytes) := by simp [Scan.atBreak, hb]
  rw [Scan.chunks, Scan.bind_of_ok hat, if_neg Bool.false_ne_true, Scan.chunk]
  cases hhead : Scan.head context bytes with
  | mk x rest =>
    cases x with
    | error err => simp only [Scan.bind_apply, hhead]
    | ok h =>
      rw [Scan.bind_of_ok hhead, Scan.bind_apply, Scan.bind_of_ok hhead]
      by_cases hinvalid : h.major ≠ major ∨ h.isIndefinite = true
      · rw [if_pos hinvalid, if_pos hinvalid]
        rfl
      · rw [if_neg hinvalid, if_neg hinvalid]
        cases hlength : h.boundedLength max context with
        | error err => rfl
        | ok length =>
          have hpure : ∀ f : Nat → Scan Bytes, (Scan.ofExcept (.ok length) >>= f) = f length :=
            fun f => rfl
          rw [hpure, hpure]
          by_cases hfit : max.toNat < total + length
          · rw [if_pos hfit, if_pos hfit]
            rfl
          · rw [if_neg hfit, if_neg hfit, Scan.bind_apply]
            rcases Nat.lt_or_ge rest.length length with hlt | hle
            · rw [Scan.take_of_lt hlt]
            · rw [Scan.take_of_le hle]
              dsimp only
              rw [List.length_take_of_le hle]

/-- Turns above the number of bytes never run out, for chunks behind those that were joined. -/
theorem chunks_run {turns : Nat} (joined bytes : Bytes) (ht : bytes.length < turns) :
    ∃ k, Loop (joinChunk major max context) toBreak joined bytes k
      ((do
        let others ← Scan.chunks major max context turns joined.length
        pure (joined ++ others) : Decoder Bytes) bytes).result := by
  induction turns generalizing joined bytes with
  | zero => exact absurd ht (Nat.not_lt_zero _)
  | succ turns ih =>
    by_cases hb : bytes.head? = some breakByte
    · obtain ⟨rest, rfl⟩ := List.head?_eq_some_iff.mp hb
      have hstop : Scan.chunks major max context (turns + 1) joined.length (breakByte :: rest) =
          (.ok [], rest) := rfl
      rw [bind_of_ok (ofScan_eq_ok.mpr hstop), List.append_nil]
      exact ⟨0, .ends (w := [breakByte]) .toBreak⟩
    · have hgo := Scan.chunks_go major max context turns joined.length hb
      cases hchunk : Scan.chunk major max context joined.length bytes with
      | mk x rest =>
        cases x with
        | error err =>
          rw [Scan.bind_apply, hchunk] at hgo
          have hstep : (joinChunk major max context joined bytes).result = .error (.wire err) :=
            bind_of_error (ofScan_of_error hchunk)
          rw [bind_of_error (ofScan_of_error hgo)]
          exact ⟨1, .fails (.toBreak hb) hstep⟩
        | ok part =>
          rw [Scan.bind_of_ok hchunk] at hgo
          have hstep : (joinChunk major max context joined bytes).result =
              .ok (joined ++ part, rest) := bind_of_ok (ofScan_eq_ok.mpr hchunk)
          have hlt := joinChunk_progresses major max context joined bytes _ rest hstep
          obtain ⟨k, hk⟩ := ih (joined ++ part) rest (by omega)
          refine ⟨k + 1, .goes (.toBreak hb) hstep hlt ?_⟩
          rw [List.length_append] at hk
          cases hothers : Scan.chunks major max context turns
            (joined.length + part.length) rest with
          | mk y rest' =>
            rw [Scan.bind_apply, hothers] at hgo
            cases y with
            | error err =>
              rw [bind_of_error (ofScan_of_error hothers)] at hk
              rwa [bind_of_error (ofScan_of_error hgo)]
            | ok others =>
              rw [bind_of_ok (ofScan_eq_ok.mpr hothers), List.append_assoc] at hk
              rwa [bind_of_ok (ofScan_eq_ok.mpr hgo)]

/-- **The loop over the chunks of a string halts.** -/
theorem chunks_halts :
    toBreak.Halts (joinChunk major max context) (joinChunks major max context) :=
  Halts.of_run fun joined bytes =>
    chunks_run major max context joined bytes (Nat.lt_succ_self _)

end chunks

/-! ## 5. All loops -/

/-- Every loop of the readers of the kinds halts. -/
structure Reading.LoopsEnd (r : Reading) : Prop where
  /-- Over the items of a list. -/
  items (item : TypeExpr) (e : Pending) :
    e.Halts (fun rev => r.part item >>= fun v => pure (v :: rev))
      (e.fold fun rev => r.part item >>= fun v => pure (v :: rev))
  /-- Over the entries of a map. -/
  entries (name : String) (key value : TypeExpr) (e : Pending) :
    e.Halts (readEntry r name key value) (e.fold (readEntry r name key value))
  /-- Over the fields of a keyed map, those that are passed over included. -/
  fields (s : Shape) (fields : List Field) (e : Pending) :
    e.Halts (s.readKeyedEntry r fields) (e.fold (s.readKeyedEntry r fields))
  /-- Over the elements past the last field. -/
  extra (e : Pending) :
    e.Halts (fun n : Nat => (liftM (Scan.skip r.depth) : Decoder Unit) >>= fun _ => pure (n + 1))
      (e.fold fun n => (liftM (Scan.skip r.depth) : Decoder Unit) >>= fun _ => pure (n + 1))
  /-- Over the elements of an array that is skipped. -/
  skippedArray (max levels : Nat) (e : Pending) :
    e.Halts (fun _ : Unit => liftM (Scan.skipLevels max levels))
      fun _ => liftM (e.scan (Scan.skipLevels max levels))
  /-- Over the entries of a map that is skipped. -/
  skippedMap (max levels : Nat) (e : Pending) :
    e.Halts
      (fun _ : Unit => liftM
        (do Scan.skipLevels max levels; Scan.skipLevels max levels : Scan Unit))
      fun _ => liftM (e.scan (do Scan.skipLevels max levels; Scan.skipLevels max levels))
  /-- Over the chunks of a string. -/
  chunks (major : Major) (max : UInt64) (context : String) :
    Pending.toBreak.Halts (joinChunk major max context) (joinChunks major max context)

/-- **The loops of the readers halt**, whatever they read. -/
theorem Reading.Sound.loopsEnd {r : Reading} (hr : r.Sound) : r.LoopsEnd where
  items item := by
    refine fold_halts fun rev => ?_
    have hstep : (r.part item >>= fun v => pure (v :: rev) : Decoder (List Value)).Yields
        fun _ u => IsItem u :=
      (hr item).bind fun v u hu => Yields.pure (by rw [List.append_nil]; exact hu.1)
    exact hstep.progresses fun _ _ hu => hu.ne_nil
  entries name key value :=
    fold_halts fun seen => (readEntry_yields hr name key value seen).progresses
    fun seen' u hu => (entryStep_startsItem seen u seen' hu).ne_nil
  fields s fields := fold_halts fun found => (readKeyedEntry_yields hr s fields found).progresses
    fun found' u hu => (keyedStep_startsItem found u found' hu).ne_nil
  extra := by
    refine fold_halts fun n => ?_
    have hstep : ((liftM (Scan.skip r.depth) : Decoder Unit) >>= fun _ => pure (n + 1)).Yields
        fun _ u => Item (r.depth + 1) u :=
      (Yields.scan (Scan.skip_yields r.depth)).bind fun _ u hu =>
        Yields.pure (by rwa [List.append_nil])
    exact hstep.progresses fun _ _ hu => hu.ne_nil
  skippedArray max levels := Pending.scan_halts <|
    (Yields.scan (skipLevels_yields max levels)).progresses fun _ _ hu => hu.ne_nil
  skippedMap max levels := Pending.scan_halts <|
    (Yields.scan (Scan.pair_yields (skipLevels_yields max levels))).progresses
      fun _ _ hu hnil => by simpa [hnil] using hu.length_le fun _ => Item.ne_nil
  chunks := chunks_halts

end CborSchema
