import CborSchema.Proofs.Roundtrip.Admitted
import CborSchema.Proofs.Roundtrip.Presence
import Mathlib.Data.List.DropRight

/-!
# Tuples with an absent tail

Fields in order are written up to the last one that is there or must be. Which slots cannot be
written so, how many elements there are otherwise, and what each of them is.

* `Stands`, `EndsAt` -- the last field with an element; `endsAt_writtenFields`, `endsAt_iff`: the
  fields that are written are those up to it;
* `Missing`, `Gap` -- a field without an element where there must be one, and slots that leave one
  so; `gap_iff`: these are the same, where optional fields stand at the end;
* `elements_written`, `elements_refused` -- elements are written in a row if none is missing, and
  the first that is missing is refused;
* `Shape.FrontAs`, `Catalog.TupleOf` -- what stands in front of the array of a list or a
  constructor, and a value that holds slots; `TupleOf.write_eq`: it is written as its elements are;
* `Catalog.Returns`, `TupleOf.exists_kept` -- **the slots of a tuple return from the wire;**
* `Catalog.TupleWritten`, `Catalog.absent_tails_are_omitted` -- **a tuple is written without its
  absent tail**, and fails if there is a gap.
-/

namespace CborSchema

open Decoder

variable {s : Shape} {w : Writing} {fields : List Field} {entries : List (Field × Option Value)}
  {e : Field × Option Value} {n : Nat}

/-! ## 1. The last element -/

/-- A field that has an element: present, a literal, required or nullable. -/
def Stands (e : Field × Option Value) : Prop :=
  e.2.isSome = true ∨ e.1.isLiteral = true ∨ e.1.presence = .required ∨ e.1.presence = .nullable

/-- Only an absent optional field has none. -/
theorem stands_iff : Stands e ↔ omitted e = false := by
  obtain ⟨f, slot⟩ := e
  cases slot with
  | some v => simp [Stands, omitted]
  | none =>
    cases hb : f.body with
    | literal l => simp [Stands, omitted, Field.isLiteral, Field.presence, hb]
    | value type presence =>
      cases presence <;> simp [Stands, omitted, Field.isLiteral, Field.presence, hb]

/-- So many elements there are: one more than the index of the last field that has one. -/
structure EndsAt (entries : List (Field × Option Value)) (n : Nat) : Prop where
  bound : ∀ i e, entries[i]? = some e → Stands e → i < n
  last : n = 0 ∨ ∃ i e, n = i + 1 ∧ entries[i]? = some e ∧ Stands e

/-- **There is one last field that has an element**, or none. -/
theorem EndsAt.unique {m : Nat} (h : EndsAt entries n) (h' : EndsAt entries m) : n = m := by
  have hle {n m : Nat} (h : EndsAt entries n) (h' : EndsAt entries m) : n ≤ m := by
    rcases h.last with rfl | ⟨i, e, rfl, he, hstands⟩
    · exact Nat.zero_le m
    · exact h'.bound i e he hstands
  exact Nat.le_antisymm (hle h h') (hle h' h)

/-- **What is written are the fields up to the last one that has an element.** -/
theorem endsAt_writtenFields (entries : List (Field × Option Value)) :
    EndsAt entries (writtenFields entries).length ∧
      writtenFields entries = entries.take (writtenFields entries).length := by
  obtain ⟨tail, hentries, htail⟩ := writtenFields_append entries
  have hlast (hne : writtenFields entries ≠ []) : Stands ((writtenFields entries).getLast hne) := by
    have hnot : ¬ omitted ((writtenFields entries).getLast hne) = true :=
      List.rdropWhile_last_not _ _ hne
    exact stands_iff.mpr (by simpa using hnot)
  generalize writtenFields entries = written at *
  subst hentries
  refine ⟨⟨fun i e he hstands => ?_, ?_⟩, (List.take_left' rfl).symm⟩
  · by_contra hlt
    rw [List.getElem?_append_right (Nat.le_of_not_lt hlt)] at he
    have homitted := htail e (List.mem_of_getElem? he)
    rw [stands_iff.mp hstands] at homitted
    cases homitted
  · rcases List.eq_nil_or_concat written with rfl | ⟨front, e, rfl⟩
    · exact .inl rfl
    · refine .inr ⟨front.length, e, by simp, by simp, ?_⟩
      simpa using hlast (by simp)

/-- **As many are written as there are elements**, and that is one number. -/
theorem endsAt_iff : EndsAt entries n ↔ n = (writtenFields entries).length := by
  have hwritten := (endsAt_writtenFields entries).1
  exact ⟨fun h => h.unique hwritten, fun h => h ▸ hwritten⟩

/-! ## 2. Gaps -/

/-- A field that has no element where one must stand. -/
def Missing (e : Field × Option Value) : Prop :=
  e.2 = none ∧ ∃ type presence, e.1.body = .value type presence ∧ presence ≠ .nullable

/-- Slots that cannot be written: a required one is absent, or an absent optional one is followed by
    one that is present. -/
inductive Gap (entries : List (Field × Option Value)) : Prop where
  | required {i : Nat} {f : Field} {type : TypeExpr} (he : entries[i]? = some (f, none))
      (hb : f.body = .value type .required) : Gap entries
  | optional {i j : Nat} {f f' : Field} {v : Value} (hij : i < j)
      (he : entries[i]? = some (f, none)) (hp : f.presence = .optional)
      (he' : entries[j]? = some (f', some v)) : Gap entries

/-- Behind an optional field all are. -/
theorem Positioned.optional_behind (h : Positioned fields) {i j : Nat} (hij : i < j) {f f' : Field}
    (hf : fields[i]? = some f) (hp : f.presence = .optional) (hf' : fields[j]? = some f') :
    f'.presence = .optional := by
  induction h generalizing i j with
  | optional hall => exact hall f' (List.mem_of_getElem? hf')
  | required hfirst _ ih =>
    cases j with
    | zero => omega
    | succ j =>
      cases i with
      | zero =>
        cases hf
        exact absurd hp hfirst
      | succ i => exact ih (Nat.lt_of_succ_lt_succ hij) hf hf'

/-- **There is a gap just if a field up to the last element has none**, where the optional ones come
    last. -/
theorem gap_iff (hp : Positioned (entries.map Prod.fst)) (hn : EndsAt entries n) :
    Gap entries ↔ ∃ e ∈ entries.take n, Missing e := by
  constructor
  · intro h
    cases h with
    | required he hb =>
      have hlt := hn.bound _ _ he (.inr (.inr (.inl (by rw [Field.presence, hb]))))
      have hmem := List.mem_of_getElem? ((List.getElem?_take_of_lt hlt).trans he)
      exact ⟨_, hmem, rfl, _, _, hb, by simp⟩
    | optional hij he hpresence he' =>
      have hlt := Nat.lt_trans hij (hn.bound _ _ he' (.inl rfl))
      have hmem := List.mem_of_getElem? ((List.getElem?_take_of_lt hlt).trans he)
      obtain ⟨type, hb⟩ := Field.body_of_optional hpresence
      exact ⟨_, hmem, rfl, type, .optional, hb, by simp⟩
  · rintro ⟨⟨f, slot⟩, hmem, rfl, type, presence, hb, hpresence⟩
    obtain ⟨i, hi⟩ := List.getElem?_of_mem hmem
    have hlt : i < n := (List.getElem?_eq_some_iff.mp hi).1.trans_le (List.length_take_le n entries)
    have he : entries[i]? = some (f, none) := (List.getElem?_take_of_lt hlt).symm.trans hi
    cases presence with
    | nullable => exact absurd rfl hpresence
    | required => exact .required he hb
    | optional =>
      have hoptional : f.presence = .optional := by rw [Field.presence, hb]
      rcases hn.last with rfl | ⟨j, ⟨f', slot'⟩, rfl, he', hstands⟩
      · omega
      · -- the last element is not that of an absent optional field, so it stands behind this one
        have hne : i ≠ j := by
          rintro rfl
          cases he.symm.trans he'
          rw [stands_iff] at hstands
          simp [omitted, hoptional] at hstands
        have hij : i < j := by omega
        have hlast : f'.presence = .optional := by
          refine hp.optional_behind hij ?_ hoptional ?_
          · rw [List.getElem?_map, he]
            rfl
          · rw [List.getElem?_map, he']
            rfl
        cases slot' with
        | some v => exact .optional hij he hoptional he'
        | none =>
          rw [stands_iff] at hstands
          simp [omitted, hlast] at hstands

/-! ## 3. Elements in a row -/

/-- What is written in a row fails where its first member does; by induction on those in front of
    it. -/
theorem concat_error {ε α β : Type} {f : α → Outcome ε (List β)} {front back : List α}
    {a : α} {err : ε} (hfront : ∀ b ∈ front, ∃ x, (f b).result = .ok x)
    (ha : (f a).result = .error err) :
    (Outcome.concat f (front ++ a :: back)).result = .error err := by
  induction front with
  | nil =>
    rw [List.nil_append, Outcome.concat, Outcome.result_bind, ha]
    rfl
  | cons b front ih =>
    obtain ⟨⟨x, hx⟩, hfront⟩ := List.forall_mem_cons.mp hfront
    rw [List.cons_append, Outcome.concat, Outcome.result_bind, hx]
    show (Outcome.concat f _).result.map _ = _
    rw [ih hfront]
    rfl

/-- What is in the slot of a field is written, if anything is. -/
def Writing.WritesSlot (w : Writing) (e : Field × Option Value) : Prop :=
  ∀ type presence z, e.1.body = .value type presence → e.2 = some z → ∃ x, w.PartAs type z x

/-- A field is written unless it is missing. -/
theorem Writing.WritesSlot.element (h : w.WritesSlot e) (hm : ¬ Missing e) :
    ∃ x, ElementAs w e x := by
  obtain ⟨f, slot⟩ := e
  cases hb : f.body with
  | literal l => exact ⟨_, .literal hb⟩
  | value type presence =>
    cases slot with
    | some z =>
      obtain ⟨x, hx⟩ := h type presence z hb rfl
      exact ⟨x, .value hb hx⟩
    | none =>
      have hnull : presence = .nullable := by
        by_contra hne
        exact hm ⟨rfl, type, presence, hb, hne⟩
      subst hnull
      exact ⟨_, .null hb⟩

theorem writeElement_missing {name : String} (hm : Missing e) :
    (writeElement w name e).result = .error (.missingField name e.1.key) := by
  obtain ⟨f, slot⟩ := e
  obtain ⟨rfl, type, presence, hb, hne⟩ := hm
  dsimp only at hb
  rw [writeElement.eq_def]
  cases presence with
  | nullable => exact absurd rfl hne
  | required | optional =>
    simp only [hb]
    rfl

/-- **Elements are written if none is missing.** -/
theorem elements_written {entries : List (Field × Option Value)}
    (hw : ∀ e ∈ entries, w.WritesSlot e) (hm : ¬ ∃ e ∈ entries, Missing e) :
    ∃ inner, Row (ElementAs w) entries inner :=
  Row.exists_of_forall fun e he => (hw e he).element fun h => hm ⟨e, he, h⟩

/-- **The first one that is missing is refused.** -/
theorem elements_refused (hs : w.Sound) (name : String) {entries : List (Field × Option Value)}
    (hw : ∀ e ∈ entries, w.WritesSlot e) (hm : ∃ e ∈ entries, Missing e) :
    ∃ front e back, entries = front ++ e :: back ∧ Missing e ∧ (∀ e' ∈ front, ¬ Missing e') ∧
      (Outcome.concat (writeElement w name) entries).result =
      .error (.missingField name e.1.key) := by
  classical
  obtain ⟨e, he, hmissing⟩ := hm
  obtain ⟨e, hfind⟩ := Option.isSome_iff_exists.mp
    (List.find?_isSome (p := fun e => decide (Missing e)).mpr ⟨e, he, by simpa using hmissing⟩)
  obtain ⟨hmissing, front, back, rfl, hfront⟩ := List.find?_eq_some_iff_append.mp hfind
  simp only [decide_eq_true_eq, Bool.not_eq_true', decide_eq_false_iff_not] at hmissing hfront
  refine ⟨front, e, back, rfl, hmissing, hfront,
    concat_error (fun b hb => ?_) (writeElement_missing hmissing)⟩
  obtain ⟨x, hx⟩ := (hw b (List.mem_append_left _ hb)).element (hfront b hb)
  exact ⟨x, (writeElement_eq_ok hs).mpr hx⟩

/-! ## 4. Tuples -/

variable {c : Catalog} {o : EncodeOptions} {depth : Nat} {v : Value} {slots : List (Option Value)}
  {p : Pieces} {front : Bytes}

/-- What stands in front of the array of a list or a constructor, behind the tag. -/
inductive Shape.FrontAs (s : Shape) (p : Pieces) : Bytes → Prop where
  | list (hk : s.kind = .list) : FrontAs s p []
  | constructor {index : UInt64} {general : Bool} (hk : s.kind = .constructor)
      (hi : s.constructorIndex p = .ok (index, general)) :
      FrontAs s p (constructorFront index general)

theorem Shape.FrontAs.positioned {t : TypeExpr} (h : s.FrontAs p front) (hs : s.check t = .ok ())
    (hl : s.layout = some (.fields fields)) : Positioned fields := by
  have harray : s.HasArray := by
    cases h with
    | list hk => exact check_list hs hk
    | constructor hk _ => exact (check_constructor hs hk).2
  rcases harray with ⟨item, hl'⟩ | ⟨fields', hl', hpos⟩
  · cases hl.symm.trans hl'
  · obtain rfl := Layout.fields.inj (Option.some.inj (hl.symm.trans hl'))
    exact hpos

theorem Shape.FrontAs.writeKind (h : s.FrontAs p front) :
    (s.writeKind w p).result = (s.writeArray w p).result.map (front ++ ·) := by
  rw [Shape.writeKind]
  cases h with
  | list hk =>
    rw [hk]
    show (s.writeArray w p).result = _
    cases (s.writeArray w p).result <;> rfl
  | constructor hk hi =>
    rw [hk]
    show (s.writeConstructor w p).result = _
    rw [Shape.writeConstructor, Outcome.result_bind, hi]
    show (s.writeArray w p >>= _).result = _
    rw [Outcome.result_bind]
    cases (s.writeArray w p).result <;> rfl

/-- An array of fields is written as its elements are. -/
theorem writeArray_of_fields (hl : s.layout = some (.fields fields))
    (hc : p.content = .fields slots) (hn : slots.length = s.arity) : (s.writeArray w p).result =
      (Outcome.concat (writeElement w s.name) (writtenFields (alignFields fields slots))).result.map
        (collectionBytes .array (w.indefinite s.length p.style)
          (writtenFields (alignFields fields slots)).length) := by
  rw [Shape.writeArray]
  simp only [hl, hc]
  rw [Outcome.result_bind, alignSlots_eq_ok.mpr ⟨hn, rfl⟩]
  show (Outcome.concat (writeElement w s.name) _ >>= _).result = _
  rw [Outcome.result_bind]
  cases (Outcome.concat (writeElement w s.name)
    (writtenFields (alignFields fields slots))).result <;> rfl

/-- A value that holds slots for the fields of a list or a constructor, each child of which is
    written one level below. -/
structure Catalog.TupleOf (c : Catalog) (o : EncodeOptions) (depth : Nat) (v : Value) (s : Shape)
    (fields : List Field) (slots : List (Option Value)) (front : Bytes) : Prop where
  resolves : c.resolve v.type = .ok s
  layout : s.layout = some (.fields fields)
  content : v.content = .fields slots
  arity : slots.length = s.arity
  front : s.FrontAs v.asPieces front
  /-- No bytes are replayed. -/
  fresh : s.preserveRaw = true → v.notes.raw = none
  children : ∀ e ∈ alignFields fields slots, (c.codec.writing o depth).WritesSlot e

namespace Catalog.TupleOf

theorem positioned (h : c.TupleOf o depth v s fields slots front) :
    Positioned ((alignFields fields slots).map Prod.fst) := by
  rw [alignFields_fields]
  exact h.front.positioned (resolve_check h.resolves).1 h.layout

theorem pieces (h : c.TupleOf o depth v s fields slots front) :
    c.pieces v.type v = .ok v.asPieces := by
  refine pieces_of_forWriting fun x hx => ?_
  rw [h.content] at hx
  cases hx

/-- **A tuple is written as its elements are.** -/
theorem write_eq (h : c.TupleOf o depth v s fields slots front) :
    (c.codec.write o (depth + 1) v.type v).result =
      (Outcome.concat (writeElement (c.codec.writing o depth) s.name)
        (writtenFields (alignFields fields slots))).result.map fun inner =>
          s.tagBefore v.notes.emit ++ (front ++ collectionBytes .array
            ((c.codec.writing o depth).indefinite s.length v.notes.emit)
            (writtenFields (alignFields fields slots)).length inner) := by
  have harray := writeArray_of_fields (w := c.codec.writing o depth)
      (p := v.asPieces) h.layout h.content h.arity
  rw [Codec.write_of_pieces h.resolves h.fresh h.pieces, Shape.writePieces, Outcome.result_bind,
    h.front.writeKind, harray]
  cases (Outcome.concat (writeElement (c.codec.writing o depth) s.name)
    (writtenFields (alignFields fields slots))).result <;> rfl

/-- **A tuple with a gap is refused, and any other is written**, up to its last element. -/
theorem refused_or_written (h : c.TupleOf o depth v s fields slots front) :
    (Gap (alignFields fields slots) ∧ ∃ before e behind,
      alignFields fields slots = before ++ e :: behind ∧
      Missing e ∧ (∀ e' ∈ before, ¬ Missing e') ∧
      (c.codec.write o (depth + 1) v.type v).result = .error (.missingField s.name e.1.key)) ∨
    (¬ Gap (alignFields fields slots) ∧ ∃ n inner, EndsAt (alignFields fields slots) n ∧
      Row (ElementAs (c.codec.writing o depth)) ((alignFields fields slots).take n) inner ∧
      (c.codec.write o (depth + 1) v.type v).result =
        .ok (s.tagBefore v.notes.emit ++ (front ++ collectionBytes .array
          ((c.codec.writing o depth).indefinite s.length v.notes.emit) n inner))) := by
  have hsound := c.codec.writing_sound o depth
  have hwrite := h.write_eq
  have hends : EndsAt (alignFields fields slots) _ := endsAt_iff.mpr rfl
  have htake := (endsAt_writtenFields (alignFields fields slots)).2
  have hchildren : ∀ e ∈ writtenFields (alignFields fields slots),
      (c.codec.writing o depth).WritesSlot e :=
    fun e he => h.children e (mem_of_mem_writtenFields he)
  rw [gap_iff h.positioned hends, ← htake]
  by_cases hm : ∃ e ∈ writtenFields (alignFields fields slots), Missing e
  · obtain ⟨before, e, behind, hentries, hmissing, hbefore, herror⟩ :=
      elements_refused hsound s.name hchildren hm
    obtain ⟨tail, hall, -⟩ := writtenFields_append (alignFields fields slots)
    refine .inl ⟨hm, before, e, behind ++ tail, ?_, hmissing, hbefore, ?_⟩
    · rw [hall, hentries, List.append_assoc, List.cons_append]
    · rw [hwrite, herror]
      rfl
  · obtain ⟨inner, hrow⟩ := elements_written hchildren hm
    have hconcat : (Outcome.concat (writeElement (c.codec.writing o depth) s.name)
        (writtenFields (alignFields fields slots))).result = .ok inner :=
      concat_eq_ok.mpr (hrow.mono fun _ _ hx => (writeElement_eq_ok hsound).mpr hx)
    refine .inr ⟨hm, _, inner, hends, htake ▸ hrow, ?_⟩
    rw [hwrite, hconcat]
    rfl

end Catalog.TupleOf

/-! ## 5. Tuples that are read back -/

variable {o' : DecodeOptions} {depth' : Nat}

/-- A slot that returns from the wire: no child as none, and a child as what is read off its
    bytes. -/
inductive Catalog.Returns (c : Catalog) (o : EncodeOptions) (depth : Nat) (o' : DecodeOptions)
    (depth' : Nat) : Option Value → Option Value → Prop where
  | absent : Returns c o depth o' depth' none none
  | present {z z' : Value} {x : Bytes} (hx : (c.codec.write o depth z.type z).result = .ok x)
      (hz : (c.codec.read o' depth' z.type).Reads x z') :
      Returns c o depth o' depth' (some z) (some z')

/-- The children that are read, as a function of those that were written. -/
theorem exists_returned {children : List Value}
    (h : ∀ z ∈ children, ∀ x, (c.codec.write o depth z.type z).result = .ok x →
      ∃ z', (c.codec.read o' depth' z.type).Reads x z') :
    ∃ g : Value → Value, (∀ z, (g z).type = z.type) ∧ ∀ z ∈ children, ∀ t x,
      (c.codec.writing o depth).PartAs t z x → (c.codec.reading o' depth').PartAt t (g z) x := by
  have hone : ∀ (z : Value) (x y : Bytes), (c.codec.write o depth z.type z).result = .ok x →
      (c.codec.write o depth z.type z).result = .ok y → x = y :=
    fun z x y hx hy => Except.ok.inj (hx.symm.trans hy)
  have hself : ∀ z : Value, z.type = z.type := fun _ => rfl
  have hchild : ∀ z ∈ children, ∀ x, (c.codec.write o depth z.type z).result = .ok x →
      ∃ z' : Value, z'.type = z.type ∧ (c.codec.reading o' depth').PartAt z.type z' x := by
    intro z hz x hx
    obtain ⟨z', hz'⟩ := h z hz x hx
    have hpart := ((c.codec.read_partAt o' depth' z.type).whole hz'.whole).2
    exact ⟨z', hpart.type, hpart⟩
  obtain ⟨g, htype, hg⟩ := exists_image (Q := fun z z' => z'.type = z.type) hone hself hchild
  refine ⟨g, htype, fun z hz t x hpart => ?_⟩
  obtain ⟨hx, rfl⟩ := hpart
  exact hg z hz x hx

namespace Catalog.TupleOf

/-- **The slots of a tuple return from the wire**, where each child does and none of a nullable
    field is written as null. -/
theorem exists_kept (h : c.TupleOf o depth v s fields slots front) {b : Bytes}
    (hb : (c.codec.write o (depth + 1) v.type v).result = .ok b)
    (hfits : s.Fits o' ((c.codec.writing o depth).indefinite s.length v.notes.emit) slots)
    (hchildren : ∀ z, some z ∈ slots → ∀ x, (c.codec.write o depth z.type z).result = .ok x →
      ∃ z', (c.codec.read o' depth' z.type).Reads x z')
    (hnull : ∀ e ∈ alignFields fields slots, e.1.presence = .nullable → ∀ z, e.2 = some z →
      (c.codec.write o depth z.type z).result ≠ .ok nullBytes) :
    ∃ parts slots', s.KeptAt (c.codec.reading o' depth') parts b ∧ parts.content = .fields slots' ∧
      List.Forall₂ (c.Returns o depth o' depth') slots slots' ∧
      ∀ name, v.type = .named name → (c.declared name).conversion.Default →
        ∃ v', c.construct v.type s parts = .ok v' ∧ v'.content = .fields slots' := by
  have hmem : ∀ z, z ∈ v.asPieces.content.parts ↔ some z ∈ slots := by
    intro z
    rw [Value.asPieces, h.content]
    simp [Content.parts]
  obtain ⟨g, htype, hg⟩ := exists_returned fun z hz => hchildren z ((hmem z).mp hz)
  obtain ⟨u, hk, rfl⟩ := (Codec.write_of_pieces_eq_ok h.resolves h.fresh h.pieces).mp hb
  have hcheck := (resolve_check h.resolves).1
  have hnever : s.NeverNull (c.codec.writing o depth) v.asPieces.content := by
    intro slots' hslots e he hp z hz t hx
    obtain rfl := Content.fields.inj (h.content.symm.trans hslots)
    rw [Shape.fields_of_layout h.layout] at he
    obtain ⟨hwrites, rfl⟩ := hx
    exact hnull e he hp z hz hwrites
  obtain ⟨kept, hkept, hslots⟩ := hk.fields_kept hcheck h.content hfits hg hnever
  refine ⟨kept, _, hkept, hslots, ?_, fun name hname hdefault => ?_⟩
  · refine List.forall₂_map_right_iff.mpr (List.forall₂_same.mpr ?_)
    rintro (_ | z) hz
    · exact .absent
    · have hz := (hmem z).mpr hz
      obtain ⟨x, hx⟩ := hk.cut.exists_of_mem hz
      exact .present hx.writes (hg z hz _ x hx).reads
  · obtain ⟨v', hv', hcontent⟩ := construct_of_fields hk hcheck h.content htype hslots hdefault
    exact ⟨v', hname ▸ hv', hcontent⟩

end Catalog.TupleOf

/-! ## 6. Tuples that are written -/

/-- What a tuple is written as, and what is read off it. -/
structure Catalog.TupleWritten (c : Catalog) (o : EncodeOptions) (depth : Nat) (v : Value)
    (s : Shape) (fields : List Field) (slots : List (Option Value)) (front : Bytes) : Prop where
  /-- It is refused for a missing field just if there is a gap. -/
  missing : (∃ key, (c.codec.write o (depth + 1) v.type v).result =
    .error (.missingField s.name key)) ↔
    Gap (alignFields fields slots)
  /-- It is refused for no other reason, and the field that is named is the first one that is
      missing. -/
  first : ∀ err, (c.codec.write o (depth + 1) v.type v).result = .error err →
    ∃ before e behind, alignFields fields slots = before ++ e :: behind ∧ Missing e ∧
      (∀ e' ∈ before, ¬ Missing e') ∧ err = .missingField s.name e.1.key
  /-- Otherwise there are the elements up to the last field that has one, and no others. -/
  written : ¬ Gap (alignFields fields slots) → ∃ n inner, EndsAt (alignFields fields slots) n ∧
    Row (ElementAs (c.codec.writing o depth)) ((alignFields fields slots).take n) inner ∧
    (c.codec.write o (depth + 1) v.type v).result =
      .ok (s.tagBefore v.notes.emit ++ (front ++ collectionBytes .array
        ((c.codec.writing o depth).indefinite s.length v.notes.emit) n inner))
  /-- For a reader whose limits hold what is written around the children, and who reads each child
      off its own bytes, the same slots are there and absent. A type that is built by its shape
      holds them. -/
  returned : ∀ b, (c.codec.write o (depth + 1) v.type v).result = .ok b → ∀ o' depth',
    s.Fits o' ((c.codec.writing o depth).indefinite s.length v.notes.emit) slots →
    (∀ z, some z ∈ slots → ∀ x, (c.codec.write o depth z.type z).result = .ok x →
      ∃ z', (c.codec.read o' depth' z.type).Reads x z') →
    (∀ e ∈ alignFields fields slots, e.1.presence = .nullable → ∀ z, e.2 = some z →
      (c.codec.write o depth z.type z).result ≠ .ok nullBytes) →
    ∃ parts slots', parts.content = .fields slots' ∧
      List.Forall₂ (c.Returns o depth o' depth') slots slots' ∧
      (∀ rest, (c.codec.read o' (depth' + 1) v.type (b ++ rest)).result =
        (c.construct v.type s parts).map fun v' => (v', rest)) ∧
      ∀ name, v.type = .named name → (c.declared name).conversion.Default → ∃ v',
        (c.codec.read o' (depth' + 1) v.type).Reads b v' ∧ v'.content = .fields slots'

/-- **A tuple is written without its absent tail.** Let a value hold as many slots as a list or a
    constructor with fields in order has, each child that is there written one level below. If a
    required slot is absent or an absent optional one is followed by one that is there, the first
    such field is refused as missing. Otherwise the elements are those up to the last field that is
    present, a literal, required or nullable; each is a literal, the bytes of a child, or null for
    an absent nullable field. Read back, the children return to their slots and all other slots are
    absent. -/
theorem Catalog.absent_tails_are_omitted (c : Catalog) (o : EncodeOptions) (depth : Nat) {v : Value}
    {s : Shape} {fields : List Field} {slots : List (Option Value)} {front : Bytes}
    (h : c.TupleOf o depth v s fields slots front) :
    c.TupleWritten o depth v s fields slots front := by
  refine ⟨?missing, ?first, ?written, ?returned⟩
  case missing =>
    constructor
    · rintro ⟨key, hkey⟩
      rcases h.refused_or_written with ⟨hgap, -⟩ | ⟨-, n, inner, -, -, hok⟩
      · exact hgap
      · cases hkey.symm.trans hok
    · intro hgap
      rcases h.refused_or_written with ⟨-, _, e, _, _, _, _, herror⟩ | ⟨hno, -⟩
      · exact ⟨e.1.key, herror⟩
      · exact absurd hgap hno
  case first =>
    intro err herr
    rcases h.refused_or_written with ⟨-, before, e, behind, hentries, hm, hfirst, herror⟩
      | ⟨-, _, _, _, _, hok⟩
    · exact ⟨before, e, behind, hentries, hm, hfirst, Except.error.inj (herr.symm.trans herror)⟩
    · cases herr.symm.trans hok
  case written =>
    intro hno
    rcases h.refused_or_written with ⟨hgap, -⟩ | ⟨-, hwritten⟩
    · exact absurd hgap hno
    · exact hwritten
  case returned =>
    intro b hb o' depth' hfits hchildren hnull
    obtain ⟨parts, slots', hkept, hcontent, hreturns, hbuilt⟩ :=
      h.exists_kept hb hfits hchildren hnull
    refine ⟨parts, slots', hcontent, hreturns, read_of_kept h.resolves hkept,
      fun name hname hdefault => ?_⟩
    obtain ⟨v', hv', hslots'⟩ := hbuilt name hname hdefault
    exact ⟨v', Codec.read_reads (.mk h.resolves hkept hv'), hslots'⟩

/-- A literal, a nullable field that is absent, one that must be there, an optional one that is
    there and one that is not: four elements are written, and the slots return. -/
theorem Catalog.a_tuple_without_its_tail :
    let c : Catalog := {
      declared := fun _ => { schema :=
        ((((Schema.list.withLiteral (.int 0) (.text "v")).withValue
          (.int 1) .text .nullable).withValue (.int 2) .uint64 .required).withValue
          (.int 3) .uint64 .optional).withValue (.int 4) .uint64 .optional }
      printName := fun _ => "note" }
    let five : Value := .ofScalar .uint64 (.uint 5)
    let slots : List (Option Value) := [none, some five, some five, none]
    let v : Value := .node (.named "note") (.fields slots) {}
    let b : Bytes := [0x84, 0x61, 0x76, 0xf6, 0x05, 0x05]
    ∃ s fields, c.TupleOf {} 255 v s fields slots [] ∧ c.TupleWritten {} 255 v s fields slots [] ∧
      (c.codec.write {} 256 v.type v).result = .ok b ∧
      ∃ v', (c.codec.read {} 256 v.type).Reads b v' ∧ ∃ slots', v'.content = .fields slots' ∧
        List.Forall₂ (c.Returns {} 255 {} 255) slots slots' := by
  intro c five slots v b
  have hfive : (c.codec.write {} 255 .uint64 five).result = .ok [0x05] := by cbv
  have htrial : c.codec.trial {} 255 .uint64 [0x05] = .ok five := by cbv
  have hwrite : (c.codec.write {} 256 v.type v).result = .ok b := by cbv
  have hchild : ∀ z, some z ∈ slots → z = five := by simp [slots]
  have htuple : c.TupleOf {} 255 v _ _ slots [] :=
    { resolves := rfl
      layout := rfl
      content := rfl
      arity := rfl
      front := .list rfl
      fresh := fun _ => rfl
      children := fun e he type presence z hb hz => by
        have he : e ∈ [(⟨.int 0, .literal (.text "v")⟩, none),
            (⟨.int 1, .value .text .nullable⟩, none),
          (⟨.int 2, .value .uint64 .required⟩, some five),
          (⟨.int 3, .value .uint64 .optional⟩, some five),
          (⟨.int 4, .value .uint64 .optional⟩, none)] := he
        simp only [List.mem_cons, List.not_mem_nil, or_false] at he
        rcases he with rfl | rfl | rfl | rfl | rfl
        case inr.inr.inl | inr.inr.inr.inl =>
          cases hb
          cases hz
          exact ⟨_, hfive, rfl⟩
        all_goals cases hz }
  have hwritten := c.absent_tails_are_omitted {} 255 htuple
  obtain ⟨parts, slots', hparts, hreturns, -, hbuilt⟩ := hwritten.returned b hwrite {} 255
    { count := fun _ => by decide
      literals := fun f hf l hl t ht => by
        have hf : f ∈ [⟨.int 0, .literal (.text "v")⟩, ⟨.int 1, .value .text .nullable⟩,
          ⟨.int 2, .value .uint64 .required⟩, ⟨.int 3, .value .uint64 .optional⟩,
          ⟨.int 4, .value .uint64 .optional⟩] := hf
        simp only [List.mem_cons, List.not_mem_nil, or_false] at hf
        rcases hf with rfl | rfl | rfl | rfl | rfl
        · cases hl
          cases ht
          decide
        all_goals cases hl
      keys := fun hk => by cases hk }
    (fun z hz x hx => by
      obtain rfl := hchild z hz
      obtain rfl := Except.ok.inj (hx.symm.trans hfive)
      exact ⟨five, (partAt_of_trial htrial).reads⟩)
    fun e he _ z hz hx => by
      obtain rfl := hchild z (by simpa [Content.parts] using mem_parts_of_aligned rfl he hz)
      cases Except.ok.inj (hx.symm.trans hfive)
  obtain ⟨v', hv', hslots'⟩ := hbuilt "note" rfl ⟨rfl, rfl⟩
  exact ⟨_, _, htuple, hwritten, hwrite, v', hv', slots', hslots', hreturns⟩

/-- A child that is written is not read where the keys of its entries are repeated, and where a
    child is read, a reader may lack the number of elements or the length of text that the list
    around it takes. An absent slot is not missed where bytes are replayed or the index of a
    constructor is missed first, and a writer may lack the nesting for the list around a child. -/
theorem Catalog.a_written_slot_does_not_return :
    let c : Catalog := {
      declared := fun name => { schema :=
        if name = "K" then Schema.scalar .uint
        else if name = "M" then Schema.map.withEntries (.named "K") (.named "K")
        else if name = "T" then Schema.list.withValue (.int 0) (.named "M") .required
        else if name = "kept" then (Schema.list.withValue (.int 0) .uint64 .required).keepingRaw
        else if name = "any" then Schema.anyConstructor.withValue (.int 0) .uint64 .required
        else (Schema.list.withLiteral (.int 0) (.text "v")).withValue (.int 1) .uint64 .required }
      printName := fun _ => "type" }
    let key (n : UInt64) : Value := .node (.named "K") (.scalar (.uint n)) {}
    let child : Value := .node (.named "M") (.entries [(key 1, key 1), (key 1, key 2)]) {}
    let five : Value := .ofScalar .uint64 (.uint 5)
    let tuple (name : String) (slot : Option Value) (raw : Option Bytes) : Value :=
      .node (.named name) (.fields [slot]) { raw }
    (c.codec.encode child).result = .ok [0xa2, 0x01, 0x01, 0x01, 0x02] ∧
      (c.codec.encode (tuple "T" (some child) none)).result =
      .ok [0x81, 0xa2, 0x01, 0x01, 0x01, 0x02] ∧
      (c.codec.decode (.named "T") [0x81, 0xa2, 0x01, 0x01, 0x01, 0x02]).result.toOption = none ∧
      (c.codec.encode (tuple "kept" none (some [0x80]))).result = .ok [0x80] ∧
      (c.codec.encode (tuple "any" none none)).result = .error (.missingAlternative "type") ∧
      (c.codec.encode five { maxDepth := 1 }).result = .ok [0x05] ∧
      (c.codec.encode (tuple "marked" (some five) none) { maxDepth := 1 }).result =
      .error (.tooDeep 1) ∧
      (c.codec.encode (tuple "marked" (some five) none)).result = .ok [0x82, 0x61, 0x76, 0x05] ∧
      ∀ o' ∈ [{ maxDepth := 1 }, { maxCollectionLength := 1 }, { maxStringLength := 0 }],
        (c.codec.decode .uint64 [0x05] o').result = .ok five ∧
          (c.codec.decode (.named "marked") [0x82, 0x61, 0x76, 0x05] o').result.toOption =
          none := by
  intro c key child five tuple
  refine ⟨?_, ?_, ?_, ?_, ?_, ?_, ?_, ?_, fun o' ho' => ?_⟩
  case refine_9 =>
    simp only [List.mem_cons, List.not_mem_nil, or_false] at ho'
    rcases ho' with rfl | rfl | rfl
    all_goals exact ⟨by cbv, by cbv⟩
  all_goals cbv

end CborSchema
