import CborSchema.Proofs.Decode.Alone

/-!
# Unions as independent trials

A union takes the bytes of the next item once and decodes exactly these as each candidate in turn.

* `Mismatch`, `firstCandidate_append` -- candidates that fail are passed over, and their failures
  are collected in order;
* `read_union` -- a union is read by its candidates alone;
* `firstCandidate_wins`, `firstCandidate_faulty`, `firstCandidate_exhausted` -- what the trials of
  the candidates, each on its own, make of them in order;
* `Catalog.union_is_first_success` -- **a union is the first success of independent trials.**
-/

namespace CborSchema

open Decoder

/-! ## 1. Trials -/

/-- A candidate mismatches: it fails, and not because it is faulty. -/
def Mismatch (x : Except DecodeError Value) : Prop := ∃ e, x = .error e ∧ ∀ f, e ≠ .config f

/-- The candidates that mismatch are passed over, and their failures collected in order. -/
theorem firstCandidate_append {r : Reading} (catalog : Catalog) (name : String) {span : Bytes}
    (failed : List (String × DecodeError)) {before : List TypeExpr} (after : List TypeExpr)
    (h : ∀ t ∈ before, Mismatch ((r.part t).whole span).result) :
    ∃ failures, List.Forall₂ (fun t f => f.1 = catalog.printName t ∧
        ((r.part t).whole span).result = .error f.2) before failures ∧
      (firstCandidate r catalog name span failed (before ++ after)).result =
        (firstCandidate r catalog name span (failed ++ failures) after).result := by
  induction before generalizing failed with
  | nil => exact ⟨[], .nil, by rw [List.append_nil]; rfl⟩
  | cons t ts ih =>
    obtain ⟨⟨e, he, hc⟩, hts⟩ := List.forall_mem_cons.mp h
    obtain ⟨failures, hf, hrun⟩ := ih (failed ++ [(catalog.printName t, e)]) hts
    refine ⟨(catalog.printName t, e) :: failures, .cons ⟨rfl, he⟩ hf, ?_⟩
    rw [List.cons_append, firstCandidate_error he hc, hrun, List.append_assoc]
    rfl

/-! ## 2. Unions -/

/-- What a union hands on: the candidate that was taken. -/
def Shape.unionParts (s : Shape) (v : Value) : Parts := { name := s.name, content := .variant v }

/-- What a union hands on for the bytes of an item. -/
def Shape.chosen (s : Shape) (r : Reading) (catalog : Catalog) (span : Bytes) : Decoder Parts :=
  fun rest => firstCandidate r catalog s.name span [] s.candidates >>= fun v =>
    pure (s.unionParts v, rest)

/-- A union that resolves is read by its candidates alone: it has no tag and keeps no bytes. -/
theorem readKept_union {s : Shape} {r : Reading} {catalog : Catalog} (hk : s.kind = .union)
    (ht : s.tag = none) (hp : s.preserveRaw = false) :
    s.readKept r catalog =
      (liftM (Scan.item r.depth) : Decoder Bytes) >>= s.chosen r catalog := by
  have hp' : ¬ s.preserveRaw = true := by rw [hp]; exact Bool.false_ne_true
  rw [Shape.readKept, if_neg hp', readItem_untagged ht, Shape.readKind, hk]
  dsimp only
  rw [Shape.readUnion, bind_assoc]
  congr 1
  funext span rest
  have hrun : ∀ x : Outcome DecodeError Value, ((x >>= fun v => pure (v, rest)) >>=
      fun p => pure (s.unionParts p.1, p.2)) >>= (fun p =>
        pure ({ p.1 with style := { p.1.style with tagged := false } }, p.2)) =
      x >>= fun v => (pure (s.unionParts v, rest) : Outcome DecodeError (Parts × Bytes)) := by
    intro x
    simp only [Outcome.bind_assoc, Outcome.pure_bind]
    rfl
  exact hrun _

theorem read_union {c : Codec} {o : DecodeOptions} {depth : Nat} {t : TypeExpr} {s : Shape}
    (hs : c.resolve t = .ok s) (hk : s.kind = .union) (ht : s.tag = none)
    (hp : s.preserveRaw = false) {bytes span rest : Bytes}
    (hspan : Scan.item depth bytes = (.ok span, rest)) :
    (c.read o (depth + 1) t bytes).result =
      (firstCandidate (c.reading o depth) c.catalog s.name span [] s.candidates).result >>=
        fun v => (c.catalog.construct t s (s.unionParts v)).map (·, rest) := by
  have hspan' : Scan.item (c.reading o depth).depth bytes = (.ok span, rest) := hspan
  rw [Codec.read_of_resolves hs, readKept_union hk ht hp, bind_assoc,
    bind_of_ok (ofScan_eq_ok.mpr hspan')]
  have hrun : ∀ x : Outcome DecodeError Value,
      ((x >>= fun v => pure (s.unionParts v, rest)) >>= fun p =>
        Decoder.ofExcept (c.catalog.construct t s p.1) p.2).result =
      x.result >>= fun v => (c.catalog.construct t s (s.unionParts v)).map (·, rest) := by
    intro x
    rw [Outcome.bind_assoc, Outcome.result_bind]
    congr 1
  exact hrun _

theorem read_union_of_error {c : Codec} {o : DecodeOptions} {depth : Nat} {t : TypeExpr} {s : Shape}
    (hs : c.resolve t = .ok s) (hk : s.kind = .union) (ht : s.tag = none)
    (hp : s.preserveRaw = false) {bytes rest : Bytes} {e : WireError}
    (hskip : Scan.item depth bytes = (.error e, rest)) :
    (c.read o (depth + 1) t bytes).result = .error (.wire e) := by
  rw [Codec.read_of_resolves hs, readKept_union hk ht hp, bind_assoc]
  exact bind_of_error (ofScan_of_error hskip)

/-- The trials of a run and the trials on their own are the same up to the nesting they name. -/
theorem Codec.trial_eq_ok {c : Codec} {o : DecodeOptions} {depth : Nat} {s : Shape} {t : TypeExpr}
    (ht : t ∈ s.candidates) {span : Bytes} (hspan : IsItem span) {v : Value}
    (h : c.trial o depth t span = .ok v) :
    (((c.reading o depth).part t).whole span).result = .ok v := by
  have halike := c.trial_alike o depth ht hspan
  rw [h] at halike
  generalize (((c.reading o depth).part t).whole span).result = x at halike ⊢
  cases halike with
  | ok => rfl

theorem Codec.trial_eq_error {c : Codec} {o : DecodeOptions} {depth : Nat} {s : Shape}
    {t : TypeExpr} (ht : t ∈ s.candidates) {span : Bytes} (hspan : IsItem span) {e : DecodeError}
    (h : c.trial o depth t span = .error e) :
    ∃ e', (((c.reading o depth).part t).whole span).result = .error e' ∧ SameButDepth e' e := by
  have halike := c.trial_alike o depth ht hspan
  rw [h] at halike
  generalize (((c.reading o depth).part t).whole span).result = x at halike ⊢
  cases halike with
  | error he => exact ⟨_, rfl, he⟩

theorem Codec.trial_mismatch {c : Codec} {o : DecodeOptions} {depth : Nat} {s : Shape}
    {t : TypeExpr} (ht : t ∈ s.candidates) {span : Bytes} (hspan : IsItem span)
    (h : Mismatch (c.trial o depth t span)) :
    Mismatch (((c.reading o depth).part t).whole span).result := by
  obtain ⟨e, he, hc⟩ := h
  obtain ⟨e', he', hsame⟩ := Codec.trial_eq_error ht hspan he
  exact ⟨e', he', fun f hf => hc f ((sameButDepth_relation.config e' e hsame f).mp hf)⟩

/-- A trial that finds a faulty declaration at any nesting fails with it. -/
theorem Codec.trial_config {c : Codec} {o : DecodeOptions} {depth : Nat} {t : TypeExpr}
    {span : Bytes} {e : DecodeError} (h : c.trial o depth t span = .error e) {f : ConfigError}
    (hf : e.Contains (.config f)) : e = .config f := by
  rw [trial, decode, Outcome.result_bind] at h
  generalize hx : (c.read _ _ t span).result = x at h
  cases x with
  | error e' =>
    cases h
    exact (c.read_orderly _ _ t hx).config f hf
  | ok p =>
    have h' : (if false || p.2.isEmpty then pure p.1 else
      Outcome.fail (DecodeError.trailingBytes p.2.length)).result = Except.error e := h
    split at h'
    · cases h'
    · cases h'
      cases hf

/-! ## 3. Trials in order -/

section trials

variable {c : Catalog} {o : DecodeOptions} {depth : Nat} {s : Shape} {span : Bytes}

/-- The first candidate whose trial succeeds is taken. -/
theorem firstCandidate_wins {before after : List TypeExpr} {u : TypeExpr}
    (hc : s.candidates = before ++ u :: after) (hspan : IsItem span)
    (hbefore : ∀ t ∈ before, Mismatch (c.codec.trial o depth t span)) {v : Value}
    (hv : c.codec.trial o depth u span = .ok v) :
    (firstCandidate (c.codec.reading o depth) c s.name span [] s.candidates).result = .ok v := by
  have hmem : u ∈ s.candidates := hc ▸ List.mem_append_right before List.mem_cons_self
  obtain ⟨failures, _, hfirst⟩ := firstCandidate_append c s.name [] (u :: after) fun t ht =>
    Codec.trial_mismatch (hc ▸ List.mem_append_left _ ht) hspan (hbefore t ht)
  rw [hc, hfirst]
  exact firstCandidate_ok (Codec.trial_eq_ok hmem hspan hv)

/-- The first candidate whose trial finds a faulty declaration, at whatever nesting, fails all. -/
theorem firstCandidate_faulty {before after : List TypeExpr} {u : TypeExpr}
    (hc : s.candidates = before ++ u :: after) (hspan : IsItem span)
    (hbefore : ∀ t ∈ before, Mismatch (c.codec.trial o depth t span)) {e : DecodeError}
    (he : c.codec.trial o depth u span = .error e) {f : ConfigError} (hf : e.Contains (.config f)) :
    (firstCandidate (c.codec.reading o depth) c s.name span [] s.candidates).result =
      .error (.config f) := by
  have hmem : u ∈ s.candidates := hc ▸ List.mem_append_right before List.mem_cons_self
  obtain ⟨failures, _, hfirst⟩ := firstCandidate_append c s.name [] (u :: after) fun t ht =>
    Codec.trial_mismatch (hc ▸ List.mem_append_left _ ht) hspan (hbefore t ht)
  obtain rfl := Codec.trial_config he hf
  obtain ⟨e', hwhole, hsame⟩ := Codec.trial_eq_error hmem hspan he
  obtain rfl := (sameButDepth_relation.config _ _ hsame f).mpr rfl
  rw [hc, hfirst]
  exact firstCandidate_config hwhole

/-- Where every trial mismatches, the failures are those of the trials, in order. -/
theorem firstCandidate_exhausted (hspan : IsItem span)
    (hall : ∀ t ∈ s.candidates, Mismatch (c.codec.trial o depth t span)) : ∃ failures,
      (firstCandidate (c.codec.reading o depth) c s.name span [] s.candidates).result =
        .error (.noMatchingCandidate s.name failures) ∧
      List.Forall₂ (fun t f => f.1 = c.printName t ∧ ∃ e, c.codec.trial o depth t span = .error e ∧
        SameButDepth e f.2) s.candidates failures := by
  obtain ⟨failures, hfailures, hfirst⟩ := firstCandidate_append c s.name [] [] fun t ht =>
    Codec.trial_mismatch ht hspan (hall t ht)
  rw [List.append_nil, List.nil_append] at hfirst
  refine ⟨failures, by rw [hfirst]; rfl, ?_⟩
  refine ((List.forall₂_and_left _ _).mpr ⟨fun t ht => ht, hfailures⟩).imp ?_
  rintro t f ⟨ht, hname, hwhole⟩
  obtain ⟨e, he, _⟩ := hall t ht
  obtain ⟨e', he', hsame⟩ := Codec.trial_eq_error ht hspan he
  rw [he', Except.error.injEq] at hwhole
  exact ⟨hname, e, he, hwhole ▸ Eq.symm hsame⟩

end trials

/-- **A union is the first success of independent trials.** Let `t` resolve to a union and let
    `depth` be the nesting left below it: one less than what a whole run starts with. If the next
    item does not fit in that, the union fails as skipping it does. Otherwise each candidate decodes
    the bytes of that item alone and completely, with that nesting and all other limits unchanged:

    * the first that decodes them is handed to the union;
    * if one before it is faulty, at whatever nesting, this is the error of the whole run;
    * if all mismatch, so does the union, with one failure for each candidate in order: that of its
      trial up to the nesting a refusal names, and no faulty declaration in it at any nesting. -/
theorem Catalog.union_is_first_success (c : Catalog) (o : DecodeOptions) (depth : Nat)
    {t : TypeExpr} {s : Shape} (hs : c.resolve t = .ok s) (hk : s.kind = .union) (bytes : Bytes) :
    (o.maxDepth = depth + 1 → (c.codec.decode t bytes o).result =
      (c.codec.read o (depth + 1) t bytes).result >>= o.finish) ∧
    (∀ e rest, Scan.skip depth bytes = (.error e, rest) →
      (c.codec.read o (depth + 1) t bytes).result = .error (.wire e)) ∧
    (∀ rest, Scan.skip depth bytes = (.ok (), rest) → ∃ span, bytes = span ++ rest ∧ IsItem span ∧
      (∀ before u after v, s.candidates = before ++ u :: after →
        (∀ x ∈ before, Mismatch (c.codec.trial o depth x span)) →
        c.codec.trial o depth u span = .ok v →
        (c.codec.read o (depth + 1) t bytes).result =
          (c.construct t s (s.unionParts v)).map (·, rest)) ∧
      (∀ before u after e f, s.candidates = before ++ u :: after →
        (∀ x ∈ before, Mismatch (c.codec.trial o depth x span)) →
        c.codec.trial o depth u span = .error e → e.Contains (.config f) →
        (c.codec.read o (depth + 1) t bytes).result = .error (.config f)) ∧
      ((∀ x ∈ s.candidates, Mismatch (c.codec.trial o depth x span)) →
        ∃ failures, (c.codec.read o (depth + 1) t bytes).result =
            .error (.noMatchingCandidate s.name failures) ∧
          List.Forall₂ (fun x f => f.1 = c.printName x ∧
            ∃ e, c.codec.trial o depth x span = .error e ∧
            SameButDepth e f.2) s.candidates failures ∧
          ∀ f ∈ failures, ∀ g, ¬ f.2.Contains (.config g))) := by
  obtain ⟨ht, hp, _, _⟩ := check_union (resolve_check hs).1 hk
  have hresolve : c.codec.resolve t = .ok s := hs
  refine ⟨fun hmax => ?_, fun e rest hskip => ?_, fun rest hskip => ?_⟩
  · rw [c.codec.decode_finish, hmax]
  · have hitem : Scan.item depth bytes = (.error e, rest) := by
      rw [Scan.item, Scan.passed, hskip]
    exact read_union_of_error hresolve hk ht hp hitem
  · obtain ⟨span, rfl, _, hi⟩ := Scan.skip_yields depth bytes () rest hskip
    have hspan := hi.isItem
    have hrun : (c.codec.read o (depth + 1) t (span ++ rest)).result =
        (firstCandidate (c.codec.reading o depth) c s.name span [] s.candidates).result >>=
          fun v => (c.construct t s (s.unionParts v)).map (·, rest) :=
      read_union hresolve hk ht hp (Scan.item_reads hi rest)
    refine ⟨span, rfl, hspan, ?_, ?_, ?_⟩
    · intro before u after v hc hbefore hv
      rw [hrun, firstCandidate_wins hc hspan hbefore hv]
      rfl
    · intro before u after e f hc hbefore he hf
      rw [hrun, firstCandidate_faulty hc hspan hbefore he hf]
      rfl
    · intro hall
      obtain ⟨failures, hfirst, hfailures⟩ := firstCandidate_exhausted hspan hall
      have herror : (c.codec.read o (depth + 1) t (span ++ rest)).result =
          .error (.noMatchingCandidate s.name failures) := by
        rw [hrun, hfirst]
        rfl
      refine ⟨failures, herror, hfailures, fun f hf g hg => ?_⟩
      obtain ⟨name, f⟩ := f
      cases (c.codec.read_orderly o (depth + 1) t herror).config g (.failure hf hg)

/-- A text is no integer, so the second candidate takes it. -/
theorem Catalog.text_is_second_candidate :
    let c : Catalog := {
      declared := fun _ => { schema := (Schema.union.withCandidate .uint64).withCandidate .text }
      printName := fun _ => "either" }
    ∃ s, c.resolve (.named "either") = .ok s ∧ s.kind = .union ∧
      s.candidates = [.uint64] ++ .text :: [] ∧ Scan.skip 2 [0x61, 0x61] = (.ok (), []) ∧
      (c.codec.read {} 3 (.named "either") [0x61, 0x61]).result =
        (c.construct (.named "either") s (s.unionParts (.ofScalar .text (.text "a")))).map
        (·, []) := by
  intro c
  refine ⟨_, rfl, rfl, rfl, rfl, ?_⟩
  obtain ⟨_, _, hskip⟩ := c.union_is_first_success {} 2 (t := .named "either") rfl rfl [0x61, 0x61]
  obtain ⟨span, hspan, _, hfirst, _⟩ := hskip [] rfl
  obtain rfl : [0x61, 0x61] = span := by simpa using hspan
  refine hfirst [.uint64] .text [] _ rfl (fun x hx => ?_) rfl
  rw [List.mem_singleton.mp hx]
  exact ⟨_, rfl, by simp⟩

end CborSchema
