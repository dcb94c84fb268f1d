import CborSchema.Proofs.Roundtrip.Admitted

/-!
# Decoded values encode

A decoder takes an integer under a head of any width, but a shape that fixes the width writes no
integer that does not fit. This is all that an encoder refuses in a decoded value.

* `Outcome.Decides` -- a run that answers under a condition, and else fails for a width;
* `Catalog.WidthFits`, `Catalog.WidthsFit` -- the condition: the integers of a value fit, those in
  bytes that are written as they were kept apart;
* `write_decides` -- a value that is admitted at every path is written under this condition, by
  induction on the nesting;
* `Catalog.decoded_encodes` -- **a decoded value encodes where its widths fit**, with its bytes kept
  or dropped; `Catalog.wide_integer_is_refused` has one that does not.
-/

namespace CborSchema

variable {c : Catalog} {s : Shape} {w : Writing}

/-! ## 1. Runs under a condition -/

/-- The refusal of an integer for its width. -/
def EncodeError.IsWidth (e : EncodeError) : Prop := ∃ name n, e = .integerWidth name n

/-- A run that answers under a condition; otherwise it refuses an integer for its width. -/
def Outcome.Decides {α : Type} (x : Outcome EncodeError α) (P : Prop) : Prop :=
  (P ∧ ∃ a, x.result = .ok a) ∨ (¬ P ∧ ∃ e, x.result = .error e ∧ e.IsWidth)

namespace Outcome.Decides

variable {α β : Type} {x : Outcome EncodeError α} {P Q : Prop}

theorem of_ok {a : α} (h : x.result = .ok a) (hP : P) : x.Decides P := .inl ⟨hP, a, h⟩

theorem iff (h : x.Decides P) (hPQ : P ↔ Q) : x.Decides Q := by
  rwa [← propext hPQ]

theorem ok_iff (h : x.Decides P) : (∃ a, x.result = .ok a) ↔ P := by
  rcases h with ⟨hP, ha⟩ | ⟨hP, e, he, _⟩
  · exact ⟨fun _ => hP, fun _ => ha⟩
  · refine ⟨fun ⟨a, ha⟩ => ?_, fun hP' => absurd hP' hP⟩
    cases ha.symm.trans he

theorem isWidth (h : x.Decides P) {e : EncodeError} (he : x.result = .error e) : e.IsWidth := by
  rcases h with ⟨_, a, ha⟩ | ⟨_, e', he', hwidth⟩
  · cases ha.symm.trans he
  · cases he.symm.trans he'
    exact hwidth

/-- Behind an answer the next step decides. -/
theorem after {f : α → Outcome EncodeError β} {a : α} (hx : x.result = .ok a)
    (hf : (f a).Decides Q) : (x >>= f).Decides Q := by
  have hresult : (x >>= f).result = (f a).result := by
    rw [result_bind, hx]
    rfl
  unfold Decides at hf ⊢
  rwa [hresult]

/-- **Two steps answer where both do.** -/
theorem bind {f : α → Outcome EncodeError β} (hx : x.Decides P) (hf : ∀ a, (f a).Decides Q) :
    (x >>= f).Decides (P ∧ Q) := by
  rcases hx with ⟨hP, a, ha⟩ | ⟨hP, e, he, hwidth⟩
  · exact (after ha (hf a)).iff ⟨fun hQ => ⟨hP, hQ⟩, And.right⟩
  · refine .inr ⟨fun h => hP h.1, e, ?_, hwidth⟩
    rw [result_bind, he]
    rfl

/-- What follows the last step that may refuse does not matter. -/
theorem andThen {f : α → Outcome EncodeError β} (hx : x.Decides P)
    (hf : ∀ a, ∃ b, (f a).result = .ok b) : (x >>= f).Decides P := by
  refine (bind (Q := True) hx fun a => ?_).iff (iff_of_eq (and_true P))
  obtain ⟨b, hb⟩ := hf a
  exact of_ok hb trivial

theorem map (hx : x.Decides P) (f : α → β) : (x.map f).Decides P := by
  rcases hx with ⟨hP, a, ha⟩ | ⟨hP, e, he, hwidth⟩
  · exact .inl ⟨hP, f a, Outcome.map_eq_ok.mpr ⟨a, ha, rfl⟩⟩
  · refine .inr ⟨hP, e, ?_, hwidth⟩
    show x.result.map f = .error e
    rw [he]
    rfl

/-- **The members of a list are written where each is.** -/
theorem concat {f : α → Outcome EncodeError (List β)} {as : List α} {P : α → Prop}
    (hf : ∀ a ∈ as, (f a).Decides (P a)) : (Outcome.concat f as).Decides (∀ a ∈ as, P a) := by
  induction as with
  | nil => exact of_ok rfl (by simp)
  | cons a as ih =>
    obtain ⟨ha, has⟩ := List.forall_mem_cons.mp hf
    rw [Outcome.concat]
    exact (bind ha fun part => (ih has).map _).iff List.forall_mem_cons.symm

end Outcome.Decides

/-! ## 2. Widths -/

/-- The argument that an integer is written with. -/
def Scalar.argument? : Scalar → Option UInt64
  | .uint n => some n
  | .nint n => some n
  | .int n => some (wireMagnitude n)
  | _ => none

/-- An integer fits the width that a shape writes it under. -/
def Shape.WidthFits (s : Shape) (content : Content Value) : Prop :=
  ∀ x n, content = .scalar x → x.argument? = some n → s.headWidth.fits n = true

/-- Each integer in a value fits the width that its type writes it under, but for those in bytes
    that are written as they were kept. -/
inductive Catalog.WidthsFit (c : Catalog) : Value → Prop where
  | replayed {v : Value} (h : c.Replays v) : WidthsFit c v
  | written {v : Value} (hv : ∀ s, c.resolve v.type = .ok s → s.WidthFits v.content)
      (hparts : ∀ z ∈ v.content.parts, WidthsFit c z) : WidthsFit c v

theorem Catalog.widthsFit_iff {v : Value} (hs : c.resolve v.type = .ok s) (hno : ¬ c.Replays v) :
    c.WidthsFit v ↔ s.WidthFits v.content ∧ ∀ z ∈ v.content.parts, c.WidthsFit z := by
  constructor
  · intro h
    cases h with
    | replayed h => exact absurd h hno
    | written hv hparts => exact ⟨hv s hs, hparts⟩
  · rintro ⟨hv, hparts⟩
    refine .written (fun s' hs' => ?_) hparts
    obtain rfl := Except.ok.inj (hs.symm.trans hs')
    exact hv

theorem requireWidth_decides (s : Shape) (n : UInt64) (b : Bytes) :
    (Outcome.ofExcept (s.requireWidth n >>= fun _ => pure b)).Decides
    (s.headWidth.fits n = true) := by
  rw [Shape.requireWidth]
  split
  · rename_i hfits
    exact .of_ok rfl hfits
  · rename_i hfits
    exact .inr ⟨hfits, _, rfl, s.name, n, rfl⟩

theorem writePayload_ok {payload : Bytes} (hsize : s.checkSize payload = .ok ())
    (style : Option ItemStyle) (m : Major) (pieces : Nat → List Bytes) :
    ∃ b, s.writePayload style m payload pieces = .ok b := by
  have hlast : ∃ b : Bytes, (if s.chunked style payload.length then
      pure (chunkedBytes m (pieces (s.chunkSize.getD Limits.chunk)))
    else pure (stringBytes m payload) : Except EncodeError Bytes) = .ok b := by
    split
    · exact ⟨_, rfl⟩
    · exact ⟨_, rfl⟩
  rw [Shape.checkSize] at hsize
  rw [Shape.writePayload]
  cases hs : s.size with
  | none => exact hlast
  | some size =>
    rw [hs] at hsize
    dsimp only at hsize ⊢
    split at hsize
    · rename_i hlength
      rw [if_neg (not_not.mpr hlength)]
      exact hlast
    · cases hsize

/-- A content without an integer fits. -/
theorem widthFits_of_none {content : Content Value}
    (h : ∀ x, content = .scalar x → x.argument? = none) : s.WidthFits content := by
  intro x n hx hn
  cases (h x hx).symm.trans hn

theorem widthFits_scalar {x : Scalar} {n : UInt64} (hn : x.argument? = some n) :
    s.headWidth.fits n = true ↔ s.WidthFits (.scalar x) := by
  constructor
  · rintro h _ _ ⟨⟩ hn'
    exact Option.some.inj (hn.symm.trans hn') ▸ h
  · exact fun h => h x n rfl hn

/-- **A scalar that is admitted is written where its width fits.** -/
theorem writeScalarOf_decides {kind : Primitive} {x : Scalar} (hx : s.AdmitsScalar kind x)
    (style : Option ItemStyle) :
    (Outcome.ofExcept (s.writeScalarOf style kind x)).Decides (s.WidthFits (.scalar x)) := by
  have hplain : ∀ {y : Scalar}, y.argument? = none → s.WidthFits (.scalar y) := fun hy =>
    widthFits_of_none fun _ h => Content.scalar.inj h ▸ hy
  cases hx with
  | bool b => exact .of_ok rfl (hplain rfl)
  | null => exact .of_ok rfl (hplain rfl)
  | uint n | unsigned n | int n =>
    exact (requireWidth_decides s _ _).iff (widthFits_scalar rfl)
  | bytes hsize | embedded hsize =>
    obtain ⟨b, hb⟩ := writePayload_ok hsize style .bytes fun size => byteChunks size _
    exact .of_ok hb (hplain rfl)
  | text hsize =>
    obtain ⟨b, hb⟩ := writePayload_ok hsize style .text fun size => textChunks size _
    exact .of_ok hb (hplain rfl)

/-! ## 3. Collections -/

section parts

variable {P : Value → Prop}

/-- A part of a value is written under its condition, as its own type. -/
def Writing.DecidesParts (w : Writing) (P : Value → Prop) (parts : List Value) : Prop :=
  ∀ z ∈ parts, (w.part z.type z).Decides (P z)

theorem writeElement_decides {name : String} {e : Field × Option Value}
    (he : AdmitsSlot .nullable e) (hw : w.DecidesParts P e.2.toList)
    (hl : e.1.isLiteral = true → e.2 = none) :
    (writeElement w name e).Decides (∀ z ∈ e.2.toList, P z) := by
  obtain ⟨f, slot⟩ := e
  cases hb : f.body with
  | literal l =>
    obtain rfl : slot = none := hl (by simp [Field.isLiteral, hb])
    refine .of_ok (a := l.bytes) ?_ (by simp)
    simp only [writeElement, hb, Outcome.result_pure]
  | value type presence =>
    obtain ⟨hnone, hsome⟩ := he type presence hb
    cases slot with
    | none =>
      obtain rfl := hnone rfl
      refine .of_ok (a := nullBytes) ?_ (by simp)
      simp only [writeElement, hb, Outcome.result_pure]
    | some z =>
      obtain rfl := hsome z rfl
      have hz := hw z (by simp)
      have hrun : writeElement w name (f, some z) = w.part z.type z := by
        simp only [writeElement, hb]
      rw [hrun]
      exact hz.iff (by simp)

theorem writeKeyed_decides {e : Field × Option Value} (he : AdmitsSlot .optional e)
    (hw : w.DecidesParts P e.2.toList) (hl : e.1.isLiteral = true → e.2 = none) :
    (writeKeyed w e).Decides (∀ z ∈ e.2.toList, P z) := by
  obtain ⟨f, slot⟩ := e
  cases hb : f.body with
  | literal l =>
    obtain rfl : slot = none := hl (by simp [Field.isLiteral, hb])
    refine .of_ok (a := f.key.bytes ++ l.bytes) ?_ (by simp)
    simp only [writeKeyed, hb, Outcome.result_pure]
  | value type presence =>
    obtain ⟨_, hsome⟩ := he type presence hb
    cases slot with
    | none =>
      refine .of_ok (a := []) ?_ (by simp)
      simp only [writeKeyed, hb, Outcome.result_pure]
    | some z =>
      obtain rfl := hsome z rfl
      have hz := hw z (by simp)
      have hrun : writeKeyed w (f, some z) = w.part z.type z >>= fun part =>
          pure (f.key.bytes ++ part) := by
        simp only [writeKeyed, hb]
      rw [hrun]
      exact (hz.andThen fun part => ⟨_, rfl⟩).iff (by simp)

/-- A field of a map that has no value is optional. -/
theorem AdmitsSlot.written {e : Field × Option Value} (he : AdmitsSlot .optional e) :
    isWritten e = true ∨ e.1.presence = .optional := by
  cases hb : e.1.body with
  | literal l => exact .inl (by simp [isWritten, Field.isLiteral, hb])
  | value type presence =>
    obtain ⟨hnone, _⟩ := he type presence hb
    cases hslot : e.2 with
    | none =>
      refine .inr ?_
      rw [Field.presence, hb]
      exact hnone hslot
    | some z => exact .inl (by simp [isWritten, hslot])

theorem writeEntry_decides {key value : TypeExpr} {e : Value × Value}
    (he : e.1.type = key ∧ e.2.type = value) (hw : w.DecidesParts P [e.1, e.2]) :
    (writeEntry w key value e).Decides (∀ z ∈ [e.1, e.2], P z) := by
  obtain ⟨rfl, rfl⟩ := he
  have hkey := hw e.1 (by simp)
  have hvalue := hw e.2 (by simp)
  exact (hkey.bind fun k => hvalue.andThen fun v => ⟨_, rfl⟩).iff (by simp)

/-- What holds of the values in slots, with their fields and without. -/
theorem forall_slots {entries : List (Field × Option Value)} :
    (∀ e ∈ entries, ∀ z ∈ e.2.toList, P z) ↔ ∀ z ∈ entries.filterMap Prod.snd, P z := by
  simp only [List.mem_filterMap, Option.mem_toList]
  exact ⟨fun h z ⟨e, he, hz⟩ => h e he z hz, fun h e he z hz => h z ⟨e, he, hz⟩⟩

/-- **An array is written where its parts are.** -/
theorem writeArray_decides {p : Pieces} (h : s.Admits p.content)
    (hk : s.kind = .list ∨ s.kind = .constructor) (hw : w.DecidesParts P p.content.parts) :
    (s.writeArray w p).Decides (∀ z ∈ p.content.parts, P z) := by
  obtain ⟨content, alternative, style⟩ := p
  dsimp only at h hw ⊢
  cases h with
  | items _ hl hv =>
    simp only [Shape.writeArray, hl]
    refine (Outcome.Decides.concat fun z hz => ?_).andThen fun parts => ⟨_, rfl⟩
    rw [← hv z hz]
    exact hw z hz
  | tuple _ hl hn he =>
    have hlength := hn.trans (Shape.arity_of_layout hl)
    simp only [Shape.writeArray, hl]
    refine .after (alignSlots_eq_ok.mpr ⟨hn, rfl⟩) ?_
    rw [Content.parts, ← alignFields_slots hlength, ← writtenFields_slots]
    refine ((Outcome.Decides.concat fun e hmem => ?_).andThen fun parts =>
      ⟨_, rfl⟩).iff forall_slots
    refine writeElement_decides (he e hmem) (fun z hz => hw z ?_)
      (alignFields_literal (mem_of_mem_writtenFields hmem))
    exact mem_parts_of_aligned hlength (mem_of_mem_writtenFields hmem) (Option.mem_toList.mp hz)
  | scalar hk' _ => simp [hk'] at hk
  | entries hk' _ _ => simp [hk'] at hk
  | keyed hk' _ _ _ => simp [hk'] at hk
  | variant hk' _ => simp [hk'] at hk

/-- **A map is written where its parts are.** -/
theorem writeMap_decides {p : Pieces} (h : s.Admits p.content) (hk : s.kind = .map)
    (hw : w.DecidesParts P p.content.parts) :
    (s.writeMap w p).Decides (∀ z ∈ p.content.parts, P z) := by
  obtain ⟨content, alternative, style⟩ := p
  dsimp only at h hw ⊢
  cases h with
  | entries _ hl he =>
    simp only [Shape.writeMap, hl]
    refine ((Outcome.Decides.concat fun e hmem => ?_).andThen fun parts => ⟨_, rfl⟩).iff
      (List.forall_mem_flatMap.symm)
    exact writeEntry_decides (he e hmem) fun z hz => hw z (List.mem_flatMap.mpr ⟨e, hmem, hz⟩)
  | keyed _ hl hn he =>
    have hlength := hn.trans (Shape.arity_of_layout hl)
    simp only [Shape.writeMap, hl]
    refine .after (alignSlots_eq_ok.mpr ⟨hn, rfl⟩) ?_
    refine .after (checkSlots_eq_ok.mpr fun e hmem => (he e hmem).written) ?_
    rw [Content.parts, ← alignFields_slots hlength]
    refine ((Outcome.Decides.concat fun e hmem => ?_).andThen fun parts =>
      ⟨_, rfl⟩).iff forall_slots
    refine writeKeyed_decides (he e hmem) (fun z hz => hw z ?_) (alignFields_literal hmem)
    exact mem_parts_of_aligned hlength hmem (Option.mem_toList.mp hz)
  | scalar hk' _ => simp [hk'] at hk
  | items hk' _ _ => simp [hk] at hk'
  | tuple hk' _ _ _ => simp [hk] at hk'
  | variant hk' _ => simp [hk'] at hk

/-- A constructor with an index, its own or that of its shape, is written where its fields are. -/
theorem writeConstructor_decides {p : Pieces} (h : s.Admits p.content) (hk : s.kind = .constructor)
    (hi : p.alternative ≠ none) (hw : w.DecidesParts P p.content.parts) :
    (s.writeConstructor w p).Decides (∀ z ∈ p.content.parts, P z) := by
  have hindex : ∃ i, s.constructorIndex p = .ok i := by
    obtain ⟨index, hindex⟩ := Option.ne_none_iff_exists'.mp hi
    rw [Shape.constructorIndex, hindex]
    split
    · exact ⟨_, rfl⟩
    · exact ⟨_, rfl⟩
    · exact ⟨_, rfl⟩
    · rename_i hnone _ _
      cases hnone
  obtain ⟨i, hi⟩ := hindex
  exact .after hi ((writeArray_decides h (.inr hk) hw).andThen fun fields => ⟨_, rfl⟩)

/-- A union is written where its candidate is. -/
theorem writeUnion_decides {p : Pieces} (h : s.Admits p.content) (hk : s.kind = .union)
    (hw : w.DecidesParts P p.content.parts) :
    (s.writeUnion w p).Decides (∀ z ∈ p.content.parts, P z) := by
  obtain ⟨content, alternative, style⟩ := p
  dsimp only at h hw ⊢
  cases h with
  | variant _ hv =>
    simp only [Shape.writeUnion, List.contains_iff_mem.mpr hv, if_true]
    exact (hw _ (List.mem_singleton.mpr rfl)).iff (List.forall_mem_singleton).symm
  | scalar hk' _ => simp [hk'] at hk
  | items hk' _ _ => simp [hk] at hk'
  | tuple hk' _ _ _ => simp [hk] at hk'
  | entries hk' _ _ => simp [hk'] at hk
  | keyed hk' _ _ _ => simp [hk'] at hk

end parts

/-! ## 4. Values -/

/-- An item of another kind than a scalar has no width. -/
theorem Shape.Admits.widthFits {content : Content Value} (h : s.Admits content)
    (hk : ∀ kind, s.kind ≠ .scalar kind) : s.WidthFits content := by
  refine widthFits_of_none fun x hx => ?_
  subst hx
  cases h with
  | scalar hk' _ => exact absurd hk' (hk _)

/-- **An item is written where its integer fits and its parts are written.** -/
theorem writeKind_decides {P : Value → Prop} {p : Pieces} (h : s.Admits p.content)
    (hi : s.kind = .constructor → p.alternative ≠ none) (hw : w.DecidesParts P p.content.parts) :
    (s.writeKind w p).Decides (s.WidthFits p.content ∧ ∀ z ∈ p.content.parts, P z) := by
  have hcollection : ∀ {x : Outcome EncodeError Bytes}, (∀ kind, s.kind ≠ .scalar kind) →
      x.Decides (∀ z ∈ p.content.parts, P z) →
      x.Decides (s.WidthFits p.content ∧ ∀ z ∈ p.content.parts, P z) := fun hk hx =>
    hx.iff (and_iff_right (h.widthFits hk)).symm
  rw [Shape.writeKind]
  cases hk : s.kind with
  | scalar kind =>
    obtain ⟨content, alternative, style⟩ := p
    dsimp only at h hw ⊢
    cases h with
    | scalar hk' hx =>
      obtain rfl := Kind.scalar.inj (hk'.symm.trans hk)
      exact (writeScalarOf_decides hx style).iff
        ⟨fun hfits => ⟨hfits, by simp [Content.parts]⟩, And.left⟩
    | items hk' _ _ => simp [hk] at hk'
    | tuple hk' _ _ _ => simp [hk] at hk'
    | entries hk' _ _ => simp [hk] at hk'
    | keyed hk' _ _ _ => simp [hk] at hk'
    | variant hk' _ => simp [hk] at hk'
  | list => exact hcollection (by simp [hk]) (writeArray_decides h (.inl hk) hw)
  | map => exact hcollection (by simp [hk]) (writeMap_decides h hk hw)
  | constructor => exact hcollection (by simp [hk]) (writeConstructor_decides h hk (hi hk) hw)
  | union => exact hcollection (by simp [hk]) (writeUnion_decides h hk hw)

/-- A content whose scalar is no unsigned magnitude of a negative integer is handed over as it
    is. -/
theorem Shape.Admits.forWriting {content : Content Value} (h : s.Admits content) :
    ∀ x, content = .scalar x → x.forWriting = .ok x := by
  rintro x rfl
  cases h with
  | scalar _ hx => cases hx <;> rfl

/-- A value with room below may have more of it. -/
theorem Catalog.Ready.mono {m n : Nat} {v : Value} (h : c.Ready m v) (hle : m ≤ n) :
    c.Ready n v := by
  intro path y hy
  obtain ⟨hlength, hwritable⟩ := h path y hy
  exact ⟨Nat.lt_of_lt_of_le hlength hle, hwritable⟩

/-- **A value that is admitted at every path is written where its widths fit**, by induction on the
    nesting. -/
theorem write_decides {o : EncodeOptions} {n : Nat} {v : Value} (h : c.Ready n v) :
    (c.codec.write o n v.type v).Decides (c.WidthsFit v) := by
  induction n generalizing v with
  | zero =>
    obtain ⟨hlength, _⟩ := h [] v rfl
    cases hlength
  | succ n ih =>
    obtain ⟨_, s, hs, hwritable⟩ := h [] v rfl
    have hreach : (c.codec.reach EncodeError.config v.type).result = .ok s := by
      show (c.resolve v.type).mapError _ = .ok s
      rw [hs]
      rfl
    refine .after hreach ?_
    split
    · rename_i raw hp hkept
      refine .of_ok (a := raw) rfl (.replayed ⟨⟨s, hs, hp⟩, ?_⟩)
      rw [Value.kept, if_pos rfl] at hkept
      simp [hkept]
    · rename_i hno
      have hreplays : ¬ c.Replays v := by
        rintro ⟨⟨s', hs', hp⟩, hraw⟩
        obtain rfl := Except.ok.inj (hs.symm.trans hs')
        obtain ⟨raw, hraw⟩ := Option.ne_none_iff_exists'.mp hraw
        exact hno raw hp (by rw [Value.kept, if_pos rfl, hraw])
      refine .after (pieces_of_forWriting hwritable.content.forWriting) ?_
      refine .andThen ?_ fun item => ⟨_, rfl⟩
      exact (writeKind_decides hwritable.content hwritable.index fun z hz => ih (h.part hz)).iff
        (Catalog.widthsFit_iff hs hreplays).symm

/-! ## 5. Decoded values -/

/-- **All that refuses a decoded value is the width of an integer.** Let the types below a type be
    built by their shapes, and let bytes decode to a value of it. With as much nesting as the
    decoder had, the value encodes if and only if its integers fit the widths of their types, those
    in bytes that are written as they were kept apart, and the only other outcome is the refusal of
    one that does not. The same holds of the value without any of the bytes it kept. -/
theorem Catalog.decoded_encodes (c : Catalog) (t : TypeExpr)
    (hbuilt : ∀ u, c.Reaches t u → c.BuiltIn u) (o : DecodeOptions) (o' : EncodeOptions)
    (hdepth : o.maxDepth ≤ o'.maxDepth) (b : Bytes) (v : Value)
    (hv : (c.codec.decode t b o).result = .ok v) :
    ∀ w, w = v ∨ w = v.dropRaw →
      ((∃ b', (c.codec.encode w o').result = .ok b') ↔ c.WidthsFit w) ∧
      ∀ e, (c.codec.encode w o').result = .error e → ∃ name n, e = .integerWidth name n := by
  obtain ⟨used, _, _, _, hread⟩ := Codec.decode_eq_ok.mp hv
  obtain ⟨_, hpart⟩ := (c.codec.read_partAt o o.maxDepth t).whole hread.whole
  obtain rfl := hpart.type
  have hready := (ready_of_read hbuilt .refl hread).mono hdepth
  have hdecides : ∀ {w : Value}, c.Ready o'.maxDepth w →
      ((∃ b', (c.codec.encode w o').result = .ok b') ↔ c.WidthsFit w) ∧
      ∀ e, (c.codec.encode w o').result = .error e → ∃ name n, e = .integerWidth name n := fun hw =>
    ⟨(write_decides hw).ok_iff, fun _ he => (write_decides hw).isWidth he⟩
  rintro w (rfl | rfl)
  · exact hdecides hready
  · exact hdecides (hready.mapNotes (f := fun n => { n with raw := none }) fun _ => rfl)

/-- A list that keeps its bytes, with an integer under a wider head than its type has: the bytes are
    written as they were kept, and without them the integer is refused. -/
theorem Catalog.kept_integer_encodes :
    let c : Catalog := {
      declared := fun name =>
        if name = "coins" then { schema := (Schema.list.withItems (.named "coin")).keepingRaw }
        else { schema := (Schema.scalar .uint).withHeadWidth .one }
      printName := fun _ => "type" }
    let b : Bytes := [0x81, 0x19, 0x01, 0x00]
    let v : Value := .node (.named "coins")
      (.items [.node (.named "coin") (.scalar (.uint 256)) {}]) { raw := some b }
    (c.codec.decode (.named "coins") b).result = .ok v ∧
      (∃ b', (c.codec.encode v).result = .ok b') ∧
      ¬ ∃ b', (c.codec.encode v.dropRaw).result = .ok b' := by
  intro c b v
  have hbuilt : ∀ u, c.Reaches (.named "coins") u → c.BuiltIn u := by
    refine fun u _ => .of_plain (fun name => ?_) u
    dsimp only [c]
    split <;> rfl
  have hv : (c.codec.decode (.named "coins") b).result = .ok v := by cbv
  have hdecides := c.decoded_encodes _ hbuilt {} {} (by decide) b v hv
  refine ⟨hv, (hdecides v (.inl rfl)).1.mpr
    (.replayed ⟨⟨_, rfl, rfl⟩, by simp [v, Value.notes]⟩), ?_⟩
  rw [(hdecides v.dropRaw (.inr rfl)).1]
  intro hfit
  have hcoins : c.resolve v.dropRaw.type = .ok _ := rfl
  obtain ⟨_, hparts⟩ := (Catalog.widthsFit_iff hcoins fun h => h.2 rfl).mp hfit
  have hcoin : c.resolve (.named "coin") = .ok _ := rfl
  obtain ⟨hfits, _⟩ := (Catalog.widthsFit_iff hcoin fun h => h.2 rfl).mp
    (hparts (.node (.named "coin") (.scalar (.uint 256)) {}) List.mem_cons_self)
  exact absurd (hfits _ 256 rfl rfl) (by decide)

/-- Not every decoded value encodes: an integer under a head of three bytes decodes as one whose
    type writes it under a head of two at most, but is not written again. -/
theorem Catalog.wide_integer_is_refused :
    let c : Catalog := {
      declared := fun _ => { schema := (Schema.scalar .uint).withHeadWidth .one }
      printName := fun _ => "coin" }
    (∀ u, c.Reaches (.named "coin") u → (∃ s, c.resolve u = .ok s) ∧ c.BuiltIn u) ∧
      ∃ v, (c.codec.decode (.named "coin") [0x19, 0x01, 0x00]).result = .ok v ∧ v.dropRaw = v ∧
        (c.codec.encode v).result = .error (.integerWidth "coin" 256) := by
  intro c
  have hcoin : ∀ u ∈ [TypeExpr.named "coin"], ∃ s, c.resolve u = .ok s ∧
      ∀ u' ∈ s.partTypes, u' ∈ [TypeExpr.named "coin"] := by
    rw [List.forall_mem_singleton]
    exact ⟨_, rfl, by decide⟩
  have hresolves := Catalog.Reaches.resolves_of_closed _ List.mem_cons_self hcoin
  exact ⟨fun u hu => ⟨hresolves u hu, .of_plain (fun _ => rfl) u⟩,
    .node (.named "coin") (.scalar (.uint 256)) {}, by cbv, rfl, by cbv⟩

end CborSchema
