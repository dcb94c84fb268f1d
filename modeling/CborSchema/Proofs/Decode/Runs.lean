import CborSchema.Decode.Decoder
import CborSchema.Proofs.Wire.Items

/-!
# What a decoder reads

The two notions of `Proofs/Wire/Reads.lean`, for decoders. Which types a decoder reached plays no
part: only its answer and the bytes it left do.

* `Decoder.Reads d used a`, `Decoder.Yields d P` and their rules, one for each way decoders are
  put together;
* `Yields.peek` -- a decoder that looks at a head first and then reads it again;
* `Steps R k s bytes s'` -- `k` steps lead from `s` to `s'`, each over its own bytes;
* `fold_reads`, `fold_yields` -- `Pending.fold` takes steps over the elements and up to the break.
-/

namespace CborSchema

/-- Steps may be put together from either end, what was reached included. -/
theorem Outcome.bind_assoc {ε α β γ : Type} (x : Outcome ε α) (f : α → Outcome ε β)
    (g : β → Outcome ε γ) : (x >>= f) >>= g = x >>= fun a => f a >>= g := by
  have hresult : ((x >>= f) >>= g).result = (x >>= fun a => f a >>= g).result := by
    simp only [result_bind]
    cases x.result <;> rfl
  have hreached : ((x >>= f) >>= g).reached = (x >>= fun a => f a >>= g).reached := by
    rw [reached_bind, reached_bind, reached_bind, result_bind]
    cases x.result with
    | error e =>
      show x.reached ++ [] ++ [] = x.reached ++ []
      rw [List.append_nil]
    | ok a => 
      show x.reached ++ (f a).reached ++ _ = x.reached ++ (f a >>= g).reached
      rw [reached_bind, List.append_assoc]
      rfl
  exact congr (congrArg mk hresult) hreached

theorem Outcome.pure_bind {ε α β : Type} (a : α) (f : α → Outcome ε β) : pure a >>= f = f a := by
  have hreached : (pure a >>= f).reached = (f a).reached := by
    rw [reached_bind]
    rfl
  have hresult : (pure a >>= f).result = (f a).result := result_bind (pure a) f
  exact congr (congrArg mk hresult) hreached

namespace Decoder

variable {α β σ : Type}

/-- The decoder uses up exactly these bytes and answers with `a`, whatever follows. -/
def Reads (d : Decoder α) (used : Bytes) (a : α) : Prop :=
  ∀ rest, (d (used ++ rest)).result = .ok (a, rest)

/-- Whenever the decoder answers, it reads bytes of which, with the answer, `P` holds. -/
def Yields (d : Decoder α) (P : α → Bytes → Prop) : Prop :=
  ∀ bytes a rest, (d bytes).result = .ok (a, rest) →
    ∃ used, bytes = used ++ rest ∧ d.Reads used a ∧ P a used

/-! ## 1. Running -/

theorem bind_eq_ok {d : Decoder α} {f : α → Decoder β} {bytes : Bytes} {b : β} {rest : Bytes}
    (h : ((d >>= f) bytes).result = .ok (b, rest)) :
    ∃ a mid, (d bytes).result = .ok (a, mid) ∧ (f a mid).result = .ok (b, rest) := by
  rw [bind_apply, Outcome.result_bind] at h
  cases hd : (d bytes).result with
  | error e => rw [hd] at h; cases h
  | ok p => rw [hd] at h; exact ⟨p.1, p.2, rfl, h⟩

theorem bind_of_ok {d : Decoder α} {f : α → Decoder β} {bytes mid : Bytes} {a : α}
    (h : (d bytes).result = .ok (a, mid)) : ((d >>= f) bytes).result = (f a mid).result := by
  rw [bind_apply, Outcome.result_bind, h]
  rfl

theorem bind_of_error {d : Decoder α} {f : α → Decoder β} {bytes : Bytes} {e : DecodeError}
    (h : (d bytes).result = .error e) : ((d >>= f) bytes).result = .error e := by
  rw [bind_apply, Outcome.result_bind, h]
  rfl

theorem bind_assoc {γ : Type} (d : Decoder α) (f : α → Decoder β) (g : β → Decoder γ) :
    (d >>= f) >>= g = d >>= fun a => f a >>= g := by
  funext bytes
  exact Outcome.bind_assoc _ _ _

theorem pure_bind (a : α) (f : α → Decoder β) : pure a >>= f = f a := by
  funext bytes
  exact Outcome.pure_bind (a, bytes) fun p => f p.1 p.2

theorem ofScan_eq_ok {s : Scan α} {bytes rest : Bytes} {a : α} :
    ((liftM s : Decoder α) bytes).result = .ok (a, rest) ↔ s bytes = (.ok a, rest) := by
  show (ofScan s bytes).result = _ ↔ _
  unfold ofScan
  split
  · rename_i h
    simp [Outcome.ofExcept, h]
  · rename_i h
    simp [Outcome.fail, Outcome.ofExcept, h]

theorem ofScan_of_error {s : Scan α} {bytes rest : Bytes} {e : WireError}
    (h : s bytes = (.error e, rest)) : ((liftM s : Decoder α) bytes).result = .error (.wire e) := by
  show (ofScan s bytes).result = _
  unfold ofScan
  rw [h]
  rfl

/-! ## 2. Reading -/

theorem Reads.pure (a : α) : (Pure.pure a : Decoder α).Reads [] a := fun _ => rfl

theorem Reads.ofExcept {r : Except DecodeError α} {a : α} (h : r = .ok a) :
    (Decoder.ofExcept r).Reads [] a := by
  subst h
  exact Reads.pure a

theorem Reads.scan {s : Scan α} {u : Bytes} {a : α} (h : s.Reads u a) :
    (liftM s : Decoder α).Reads u a := fun rest => ofScan_eq_ok.mpr (h rest)

/-- **What two steps read is what the first reads, then what the second reads.** -/
theorem Reads.bind {d : Decoder α} {f : α → Decoder β} {u v : Bytes} {a : α} {b : β}
    (hd : d.Reads u a) (hf : (f a).Reads v b) : (d >>= f).Reads (u ++ v) b := by
  intro rest
  rw [List.append_assoc, bind_of_ok (hd _), hf rest]

/-- A last step that needs no bytes. -/
theorem Reads.bind_nil {d : Decoder α} {f : α → Decoder β} {u : Bytes} {a : α} {b : β}
    (hd : d.Reads u a) (hf : (f a).Reads [] b) : (d >>= f).Reads u b := by
  have := hd.bind hf
  rwa [List.append_nil] at this

theorem Reads.alone {d : Decoder α} {u : Bytes} {a : α} (h : d.Reads u a) :
    (d u).result = .ok (a, []) := by
  simpa using h []

/-- One answer only. -/
theorem Reads.unique {d : Decoder α} {u : Bytes} {a b : α} (ha : d.Reads u a) (hb : d.Reads u b) :
    a = b := by
  have h := ha.alone.symm.trans hb.alone
  simpa using h

theorem Reads.spanned {d : Decoder α} {u : Bytes} {a : α} (h : d.Reads u a) :
    d.spanned.Reads u (a, u) := by
  intro rest
  show ((d (u ++ rest)).bind _).result = _
  rw [← show (d (u ++ rest) >>= _).result = ((d (u ++ rest)).bind _).result from rfl,
    Outcome.result_bind, h rest]
  show Except.ok ((a, (u ++ rest).take ((u ++ rest).length - rest.length)), rest) = _
  simp

/-- On bytes that hold nothing else. -/
theorem Reads.whole {d : Decoder α} {u : Bytes} {a : α} (h : d.Reads u a) :
    (d.whole u).result = .ok a := by
  show ((d u) >>= _).result = _
  rw [Outcome.result_bind, h.alone]
  rfl

/-! ## 3. Yielding -/

theorem Yields.mono {d : Decoder α} {P Q : α → Bytes → Prop} (h : d.Yields P)
    (hPQ : ∀ a u, d.Reads u a → P a u → Q a u) : d.Yields Q := by
  intro bytes a rest hr
  obtain ⟨u, hu, hR, hP⟩ := h bytes a rest hr
  exact ⟨u, hu, hR, hPQ a u hR hP⟩

theorem Yields.pure {P : α → Bytes → Prop} {a : α} (h : P a []) :
    (Pure.pure a : Decoder α).Yields P := by
  intro bytes b rest hr
  cases hr
  exact ⟨[], rfl, Reads.pure a, h⟩

theorem Yields.fail {P : α → Bytes → Prop} (e : DecodeError) :
    (Decoder.fail e : Decoder α).Yields P := by
  intro bytes a rest hr
  cases hr

theorem Yields.ofExcept {P : α → Bytes → Prop} {r : Except DecodeError α}
    (h : ∀ a, r = .ok a → P a []) : (Decoder.ofExcept r).Yields P := by
  cases r with
  | ok a => exact Yields.pure (h a rfl)
  | error e => exact Yields.fail e

theorem Yields.scan {s : Scan α} {P : α → Bytes → Prop} (h : s.Yields P) :
    (liftM s : Decoder α).Yields P := by
  intro bytes a rest hr
  obtain ⟨u, hu, hR, hP⟩ := h bytes a rest (ofScan_eq_ok.mp hr)
  exact ⟨u, hu, Reads.scan hR, hP⟩

/-- **Two steps yield what the second yields behind the bytes of the first.** -/
theorem Yields.bind {d : Decoder α} {f : α → Decoder β} {P : α → Bytes → Prop}
    {Q : β → Bytes → Prop} (hd : d.Yields P)
    (hf : ∀ a u, P a u → (f a).Yields fun b v => Q b (u ++ v)) : (d >>= f).Yields Q := by
  intro bytes b rest hr
  obtain ⟨a, mid, h1, h2⟩ := bind_eq_ok hr
  obtain ⟨u, rfl, hRu, hP⟩ := hd bytes a mid h1
  obtain ⟨v, rfl, hRv, hQ⟩ := hf a u hP mid b rest h2
  exact ⟨u ++ v, (List.append_assoc u v rest).symm, hRu.bind hRv, hQ⟩

/-- A first step that needs no bytes. -/
theorem Yields.after {r : Except DecodeError α} {f : α → Decoder β} {Q : β → Bytes → Prop}
    (hf : ∀ a, r = .ok a → (f a).Yields Q) : (Decoder.ofExcept r >>= f).Yields Q := by
  refine Yields.bind (P := fun a u => u = [] ∧ r = .ok a)
    (Yields.ofExcept fun a ha => ⟨rfl, ha⟩) fun a u hu => ?_
  obtain ⟨rfl, ha⟩ := hu
  exact hf a ha

/-- What reads the bytes it should yields no more than it does. -/
theorem Yields.of_reads {d : Decoder α} {P : α → Bytes → Prop} (h : ∀ a u, P a u → d.Reads u a)
    (hd : ∀ bytes a rest, (d bytes).result = .ok (a, rest) →
      ∃ used, bytes = used ++ rest ∧ P a used) : d.Yields P := by
  intro bytes a rest hr
  obtain ⟨u, hu, hP⟩ := hd bytes a rest hr
  exact ⟨u, hu, h a u hP, hP⟩

theorem Yields.spanned {d : Decoder α} {P : α → Bytes → Prop} (h : d.Yields P) :
    d.spanned.Yields fun p u => p.2 = u ∧ d.Reads u p.1 ∧ P p.1 u := by
  intro bytes p rest hr
  have hr' : (d bytes >>= fun q => Pure.pure ((q.1, bytes.take (bytes.length - q.2.length)), q.2)
      ).result = .ok (p, rest) := hr
  rw [Outcome.result_bind] at hr'
  cases hd : (d bytes).result with
  | error e => rw [hd] at hr'; cases hr'
  | ok q =>
    rw [hd] at hr'
    obtain ⟨u, rfl, hR, hP⟩ := h bytes q.1 q.2 hd
    cases hr'
    have hspan : (u ++ q.2).take ((u ++ q.2).length - q.2.length) = u := by simp
    rw [hspan]
    exact ⟨u, rfl, hR.spanned, rfl, hR, hP⟩

/-- What answers on bytes alone reads all of them. -/
theorem Yields.whole {d : Decoder α} {P : α → Bytes → Prop} (h : d.Yields P) {bytes : Bytes} {a : α}
    (hw : (d.whole bytes).result = .ok a) : d.Reads bytes a ∧ P a bytes := by
  have hw' : (d bytes >>= fun p => if p.2.isEmpty then Pure.pure p.1
      else Outcome.fail (.trailingBytes p.2.length)).result = .ok a := hw
  rw [Outcome.result_bind] at hw'
  cases hd : (d bytes).result with
  | error e => rw [hd] at hw'; cases hw'
  | ok p =>
    rw [hd] at hw'
    have hw'' : (if p.2.isEmpty then Pure.pure p.1 else
      Outcome.fail (DecodeError.trailingBytes p.2.length)).result = Except.ok a := hw'
    split at hw''
    · rename_i he
      obtain ⟨u, rfl, hR, hP⟩ := h bytes p.1 p.2 hd
      rw [List.isEmpty_iff.mp he, List.append_nil]
      cases hw''
      exact ⟨hR, hP⟩
    · cases hw''

/-! ## 4. Looking ahead -/

/-- The bytes start with a whole head. -/
def StartsHead (h : Head) (u : Bytes) : Prop :=
  ∃ front tail, u = front ++ tail ∧ h.Spelled front

theorem StartsHead.unique {h h' : Head} {u : Bytes} (hu : StartsHead h u) (hu' : StartsHead h' u) :
    h = h' := by
  obtain ⟨front, tail, rfl, hs⟩ := hu
  obtain ⟨front', tail', e, hs'⟩ := hu'
  have h1 := hs "" tail
  rw [e, hs' "" tail'] at h1
  simpa using congrArg Prod.fst h1.symm

theorem StartsHead.append {h : Head} {u : Bytes} (hu : StartsHead h u) (v : Bytes) :
    StartsHead h (u ++ v) := by
  obtain ⟨front, tail, rfl, hs⟩ := hu
  exact ⟨front, tail ++ v, by rw [List.append_assoc], hs⟩

theorem peek_of_starts {h : Head} {u : Bytes} (hu : StartsHead h u) (context : String) :
    Scan.peek (Scan.head context) u = (.ok h, u) := by
  obtain ⟨front, tail, rfl, hs⟩ := hu
  rw [Scan.peek, hs context tail]

theorem Reads.peek {f : Head → Decoder α} {context : String} {h : Head} {u : Bytes} {a : α}
    (hu : StartsHead h u) (hf : (f h).Reads u a) :
    ((liftM (Scan.peek (Scan.head context)) : Decoder Head) >>= f).Reads u a := by
  intro rest
  rw [bind_of_ok (ofScan_eq_ok.mpr (peek_of_starts (hu.append rest) context)), hf rest]

/-- **A decoder that looks at a head first** reads what it reads then, as soon as this starts with
    any head: no other than the one it looked at. -/
theorem Yields.peek {f : Head → Decoder α} {context : String} {P : α → Bytes → Prop}
    (hf : ∀ h, (f h).Yields fun a u => (∃ h', StartsHead h' u) ∧ (StartsHead h u → P a u)) :
    ((liftM (Scan.peek (Scan.head context)) : Decoder Head) >>= f).Yields P := by
  intro bytes a rest hr
  obtain ⟨h, mid, h1, h2⟩ := bind_eq_ok hr
  have hp := ofScan_eq_ok.mp h1
  simp only [Scan.peek, Prod.mk.injEq] at hp
  obtain ⟨hh, rfl⟩ := hp
  obtain ⟨u, rfl, hR, ⟨h', hu⟩, hP⟩ := hf h bytes a rest h2
  obtain ⟨front, hb, _, hs⟩ := head_yields context _ h _ (Prod.ext hh rfl)
  obtain rfl : h = h' := StartsHead.unique ⟨front, _, hb, hs⟩ (hu.append rest)
  exact ⟨u, rfl, Reads.peek hu hR, hP hu⟩

theorem Reads.peekByte {f : UInt8 → Decoder α} {context : String} {b : UInt8} {tail : Bytes} {a : α}
    (hf : (f b).Reads (b :: tail) a) :
    ((liftM (Scan.peek (Scan.byte context)) : Decoder UInt8) >>= f).Reads (b :: tail) a := by
  intro rest
  have hpeek : Scan.peek (Scan.byte context) (b :: tail ++ rest) = (.ok b, b :: tail ++ rest) := rfl
  rw [bind_of_ok (ofScan_eq_ok.mpr hpeek), hf rest]

/-- A decoder that looks at one byte first and then uses up a byte. -/
theorem Yields.peekByte {f : UInt8 → Decoder α} {context : String} {P : α → Bytes → Prop}
    (hf : ∀ b, (f b).Yields fun a u => u ≠ [] ∧ (u.head? = some b → P a u)) :
    ((liftM (Scan.peek (Scan.byte context)) : Decoder UInt8) >>= f).Yields P := by
  intro bytes a rest hr
  obtain ⟨b, mid, h1, h2⟩ := bind_eq_ok hr
  have hpeek := ofScan_eq_ok.mp h1
  cases bytes with
  | nil => cases hpeek
  | cons c bytes =>
    cases hpeek
    obtain ⟨u, hu, hR, hne, hP⟩ := hf b _ a rest h2
    obtain ⟨d, tail, rfl⟩ := List.exists_cons_of_ne_nil hne
    obtain rfl : b = d := by simpa using congrArg List.head? hu
    exact ⟨b :: tail, hu, Reads.peekByte hR, hP rfl⟩

theorem Reads.stop {x y : Decoder α} {u : Bytes} {a : α} (h : x.Reads (breakByte :: u) a) :
    ((liftM Scan.atBreak : Decoder Bool) >>= fun b => if b then x else y).Reads
      (breakByte :: u) a := by
  intro rest
  have hb : Scan.atBreak (breakByte :: u ++ rest) = (.ok true, breakByte :: u ++ rest) := rfl
  rw [bind_of_ok (ofScan_eq_ok.mpr hb)]
  exact h rest

theorem Reads.go {x y : Decoder α} {u : Bytes} {a : α} (hu : Scan.StartsItem u) (h : y.Reads u a) :
    ((liftM Scan.atBreak : Decoder Bool) >>= fun b => if b then x else y).Reads u a := by
  intro rest
  obtain ⟨c, u, rfl, hc⟩ := hu
  have hb : Scan.atBreak (c :: u ++ rest) = (.ok false, c :: u ++ rest) := by
    simp [Scan.atBreak, hc]
  rw [bind_of_ok (ofScan_eq_ok.mpr hb)]
  exact h rest

/-- **A choice by whether the break code is next**, where both ways use up a byte. -/
theorem Yields.ifBreak {x y : Decoder α} {P : α → Bytes → Prop}
    (hx : x.Yields fun a u => u ≠ [] ∧ P a u) (hy : y.Yields fun a u => u ≠ [] ∧ P a u) :
    ((liftM Scan.atBreak : Decoder Bool) >>= fun b => if b then x else y).Yields P := by
  intro bytes a rest hr
  obtain ⟨b, mid, h1, h2⟩ := bind_eq_ok hr
  have hp := ofScan_eq_ok.mp h1
  simp only [Scan.atBreak, Prod.mk.injEq, Except.ok.injEq] at hp
  obtain ⟨hb, rfl⟩ := hp
  cases b with
  | true =>
    obtain ⟨u, rfl, hR, hne, hP⟩ := hx bytes a rest h2
    obtain ⟨c, u, rfl⟩ := List.exists_cons_of_ne_nil hne
    obtain rfl : c = breakByte := by simpa using hb
    exact ⟨breakByte :: u, rfl, hR.stop, hP⟩
  | false =>
    obtain ⟨u, rfl, hR, hne, hP⟩ := hy bytes a rest h2
    obtain ⟨c, u, rfl⟩ := List.exists_cons_of_ne_nil hne
    exact ⟨c :: u, rfl, hR.go ⟨c, u, rfl, by simpa using hb⟩, hP⟩

/-! ## 5. Steps -/

/-- So many steps, each over its own bytes. -/
inductive Steps (R : σ → Bytes → σ → Prop) : Nat → σ → Bytes → σ → Prop where
  | nil {s : σ} : Steps R 0 s [] s
  | cons {s t s' : σ} {x bytes : Bytes} {k : Nat} (hx : R s x t) (hs : Steps R k t bytes s') :
      Steps R (k + 1) s (x ++ bytes) s'

section steps

variable {R : σ → Bytes → σ → Prop} {step : σ → Decoder σ}

theorem times_reads (hr : ∀ s x s', R s x s' → (step s).Reads x s') {n : Nat} {s s' : σ}
    {u : Bytes} (h : Steps R n s u s') : (times step n s).Reads u s' := by
  induction h with
  | nil => exact Reads.pure _
  | cons hx _ ih => exact (hr _ _ _ hx).bind ih

theorem times_yields (hy : ∀ s, (step s).Yields fun s' x => R s x s') (n : Nat) (s : σ) :
    (times step n s).Yields fun s' u => Steps R n s u s' := by
  induction n generalizing s with
  | zero => exact Yields.pure .nil
  | succ n ih => exact (hy s).bind fun t x hx => (ih t).mono fun _ _ _ hs => .cons hx hs

/-- Steps up to a break are taken with any number of turns above the number of bytes. -/
theorem untilBreak_reads (hR : ∀ s x s', R s x s' → Scan.StartsItem x)
    (hr : ∀ s x s', R s x s' → (step s).Reads x s') {k turns : Nat} {s s' : σ} {u : Bytes}
    (h : Steps R k s u s') (ht : u.length < turns) :
    (untilBreak step turns s).Reads (u ++ [breakByte]) s' := by
  induction h generalizing turns with
  | nil =>
    obtain ⟨t, rfl⟩ := Nat.exists_eq_add_of_lt ht
    exact Reads.stop (Reads.bind_nil (Reads.scan (Scan.closing_reads _)) (Reads.pure _))
  | cons hx _ ih =>
    obtain ⟨t, rfl⟩ := Nat.exists_eq_add_of_lt ht
    have hstart := hR _ _ _ hx
    have hlen := List.length_pos_iff.mpr hstart.ne_nil
    rw [List.length_append] at ht
    rw [List.append_assoc]
    refine Reads.go (hstart.append _) ((hr _ _ _ hx).bind (ih ?_))
    rw [List.length_append]
    omega

theorem untilBreak_yields (hy : ∀ s, (step s).Yields fun s' x => R s x s') (turns : Nat) (s : σ) :
    (untilBreak step turns s).Yields fun s' u =>
      u ≠ [] ∧ ∃ k v, u = v ++ [breakByte] ∧ Steps R k s v s' := by
  induction turns generalizing s with
  | zero => exact Yields.fail _
  | succ turns ih =>
    refine Yields.ifBreak ?_ ?_
    · refine (Yields.scan (Scan.closing_yields _)).bind fun _ u hu => Yields.pure ?_
      subst hu
      exact ⟨by simp, by simp, 0, [], rfl, .nil⟩
    · refine (hy s).bind fun t x hx => (ih t).mono ?_
      rintro s' _ _ ⟨_, k, v, rfl, hs⟩
      have hne : x ++ (v ++ [breakByte]) ≠ [] := by simp
      exact ⟨hne, hne, k + 1, x ++ v, by rw [List.append_assoc], .cons hx hs⟩

end steps

end Decoder

/-! ## 6. Pending elements -/

namespace Pending

open Decoder

variable {σ : Type} {R : σ → Bytes → σ → Prop} {step : σ → Decoder σ}

/-- The bytes of so many pending elements, the break that closes them included. -/
inductive Body : Pending → Nat → Bytes → Bytes → Prop where
  | counted {n : Nat} {inner : Bytes} : Body (counted n) n inner inner
  | toBreak {n : Nat} {inner : Bytes} : Body toBreak n inner (inner ++ [breakByte])

theorem fold_reads (hR : ∀ s x s', R s x s' → Scan.StartsItem x)
    (hr : ∀ s x s', R s x s' → (step s).Reads x s') {e : Pending} {k : Nat} {s s' : σ}
    {inner u : Bytes} (hb : e.Body k inner u) (h : Steps R k s inner s') :
    (e.fold step s).Reads u s' := by
  cases hb with
  | counted => exact times_reads hr h
  | toBreak =>
    intro rest
    exact untilBreak_reads hR hr h (by simp only [List.length_append]; omega) rest

/-- **One step for each pending element, up to the break that closes them.** -/
theorem fold_yields (hR : ∀ s x s', R s x s' → Scan.StartsItem x)
    (hr : ∀ s x s', R s x s' → (step s).Reads x s')
    (hy : ∀ s, (step s).Yields fun s' x => R s x s') (e : Pending) (s : σ) :
    (e.fold step s).Yields fun s' u => ∃ k inner, e.Body k inner u ∧ Steps R k s inner s' := by
  refine Yields.of_reads ?_ ?_
  · rintro s' u ⟨k, inner, hb, hs⟩
    exact fold_reads hR hr hb hs
  · intro bytes s' rest h
    cases e with
    | counted n =>
      obtain ⟨u, hu, _, hs⟩ := times_yields hy n s bytes s' rest h
      exact ⟨u, hu, n, u, .counted, hs⟩
    | toBreak =>
      obtain ⟨u, hu, _, _, k, v, rfl, hs⟩ := untilBreak_yields hy _ s bytes s' rest h
      exact ⟨_, hu, k, v, .toBreak, hs⟩

/-! ## 7. Whether another element follows -/

/-- Another element follows; what is to come after it. -/
inductive More : Pending → Pending → Prop where
  | counted {n : Nat} : More (counted (n + 1)) (counted n)
  | toBreak : More toBreak toBreak

/-- No element follows; the bytes that say so. -/
inductive Ends : Pending → Bytes → Prop where
  | counted : Ends (counted 0) []
  | toBreak : Ends toBreak [breakByte]

variable {α : Type} {f : Bool × Pending → Decoder α} {e : Pending}

theorem another_toBreak (f : Bool × Pending → Decoder α) : toBreak.another >>= f =
    ((liftM Scan.atBreak : Decoder Bool) >>= fun b =>
      if b then (liftM (Scan.closing "indefinite item") : Decoder Unit) >>= fun _ =>
        f (false, counted 0)
      else f (true, toBreak)) := by
  rw [another, bind_assoc]
  congr 1
  funext b
  cases b with
  | true => rw [if_pos rfl, if_pos rfl, bind_assoc]; simp only [pure_bind]
  | false => rw [if_neg Bool.false_ne_true, if_neg Bool.false_ne_true, pure_bind]

theorem Reads.more {e' : Pending} {u : Bytes} {a : α} (he : e.More e') (hu : Scan.StartsItem u)
    (h : (f (true, e')).Reads u a) : (e.another >>= f).Reads u a := by
  cases he with
  | counted =>
    rw [another, pure_bind]
    exact h
  | toBreak =>
    rw [another_toBreak]
    exact Decoder.Reads.go hu h

theorem Reads.ends {w u : Bytes} {a : α} (he : e.Ends w)
    (h : (f (false, counted 0)).Reads u a) : (e.another >>= f).Reads (w ++ u) a := by
  cases he with
  | counted =>
    rw [another, pure_bind]
    exact h
  | toBreak =>
    rw [another_toBreak]
    exact Decoder.Reads.stop ((Decoder.Reads.scan (Scan.closing_reads _)).bind h)

theorem Yields.another {P : α → Bytes → Prop}
    (hm : ∀ e', e.More e' → (f (true, e')).Yields fun a u => Scan.StartsItem u ∧ P a u)
    (he : ∀ w, e.Ends w → (f (false, counted 0)).Yields fun a u => P a (w ++ u)) :
    (e.another >>= f).Yields P := by
  cases e with
  | counted n =>
    cases n with
    | zero =>
      rw [another, pure_bind]
      exact he [] .counted
    | succ n =>
      rw [another, pure_bind]
      exact (hm (counted n) .counted).mono fun _ _ _ h => h.2
  | toBreak =>
    rw [another_toBreak]
    refine Decoder.Yields.ifBreak ?_ ?_
    · refine (Decoder.Yields.scan (Scan.closing_yields _)).bind fun _ w hw => ?_
      subst hw
      exact (he _ .toBreak).mono fun _ _ _ h => ⟨by simp, h⟩
    · exact (hm toBreak .toBreak).mono fun _ _ _ h => ⟨h.1.ne_nil, h.2⟩

end Pending

end CborSchema
