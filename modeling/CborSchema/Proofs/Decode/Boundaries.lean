import CborSchema.Proofs.Decode.Alike

/-!
# Where items end

The typed reader and the skipper agree on where an item ends, so a union trial never leaves bytes.

* `Codec.read_stops_where_skip_stops` -- **whatever a reader of any kind uses up is one item**, the
  skipper stops at the same byte, and no failure of any nesting is a trial that left bytes;
* `DecodeError.Contains` -- an error that lies in another, at any nesting of unions;
* `DecodeError.Orderly`, `Codec.read_orderly` -- no error of a read contains bytes left over, and a
  faulty declaration ends the run wherever it is found.
-/

namespace CborSchema

open Decoder

/-! ## 1. Errors in errors -/

/-- An error lies in another: it is the error itself, or lies in the failure of a candidate. -/
inductive DecodeError.Contains : DecodeError → DecodeError → Prop where
  | here (e : DecodeError) : Contains e e
  | failure {type name : String} {failures : List (String × DecodeError)} {f e : DecodeError}
      (hf : (name, f) ∈ failures) (he : Contains f e) :
      Contains (.noMatchingCandidate type failures) e

/-- No bytes left over lie in the error, and no faulty declaration below it. -/
structure DecodeError.Orderly (e : DecodeError) : Prop where
  trailing : ∀ count, ¬ e.Contains (.trailingBytes count)
  config : ∀ f, e.Contains (.config f) → e = .config f

namespace DecodeError

theorem contains_of_isPlain {e f : DecodeError} (he : e.isPlain) (h : e.Contains f) : f = e := by
  cases h with
  | here => rfl
  | failure _ _ => cases he

theorem orderly_of_isPlain {e : DecodeError} (he : e.isPlain) : e.Orderly := by
  constructor
  · intro count h
    rw [← contains_of_isPlain he h] at he
    cases he
  · intro f h
    exact (contains_of_isPlain he h).symm

theorem orderly_config (f : ConfigError) : (DecodeError.config f).Orderly := by
  constructor
  · intro count h
    cases h
  · intro g h
    cases h
    rfl

/-- A union is refused in an orderly way if each candidate is, and none is faulty. -/
theorem orderly_union {type : String} {failures : List (String × DecodeError)}
    (h : ∀ f ∈ failures, f.2.Orderly ∧ ∀ c, f.2 ≠ .config c) :
    (noMatchingCandidate type failures).Orderly := by
  constructor
  · intro count hc
    cases hc with
    | failure hf he => exact (h _ hf).1.trailing count he
  · intro f hc
    cases hc with
    | failure hf he => exact absurd ((h _ hf).1.config f he) ((h _ hf).2 f)

end DecodeError

/-- An orderly error and itself. -/
theorem orderly_relation : ErrorRelation fun e f => e = f ∧ e.Orderly where
  plain _ he := ⟨rfl, DecodeError.orderly_of_isPlain he⟩
  union name fs gs h := by
    have hfs : fs = gs ∧ ∀ f ∈ fs, f.2.Orderly ∧ ∀ c, f.2 ≠ .config c := by
      induction h with
      | nil => exact ⟨rfl, by simp⟩
      | cons hfg _ ih =>
        obtain ⟨hname, ⟨herr, ho⟩, hc⟩ := hfg
        obtain ⟨rfl, hall⟩ := ih
        exact ⟨by rw [Prod.ext hname herr], List.forall_mem_cons.mpr ⟨⟨ho, hc⟩, hall⟩⟩
    obtain ⟨rfl, hall⟩ := hfs
    exact ⟨rfl, DecodeError.orderly_union hall⟩
  config _ _ h _ := by rw [h.1]

/-- **A read fails in an orderly way.** -/
theorem Codec.read_orderly (c : Codec) (o : DecodeOptions) (depth : Nat) (t : TypeExpr)
    {bytes : Bytes} {e : DecodeError} (h : (c.read o depth t bytes).result = .error e) :
    e.Orderly := by
  have hall : c.ClosedUnder (fun e f => e = f ∧ e.Orderly) fun _ => True :=
    ⟨fun _ _ _ _ _ _ => trivial, fun _ f _ _ => ⟨rfl, DecodeError.orderly_config f⟩⟩
  have halike := Codec.read_alike (o := o) orderly_relation
    ⟨rfl, DecodeError.orderly_of_isPlain rfl⟩ ⟨rfl, rfl⟩ hall depth (t := t) trivial bytes
  rw [h] at halike
  cases halike with
  | error h => exact h.2

/-! ## 2. Typed reading and skipping -/

/-- What reads items stops where skipping stops. -/
theorem Decoder.Yields.skips {α : Type} {d : Decoder α} (hd : d.Yields fun _ u => IsItem u)
    {bytes rest : Bytes} {a : α} (h : (d bytes).result = .ok (a, rest)) :
    ∃ used, bytes = used ++ rest ∧ IsItem used ∧
      ∀ depth, used.length ≤ depth → Scan.skip depth bytes = (.ok (), rest) := by
  obtain ⟨used, rfl, _, hi⟩ := hd bytes a rest h
  exact ⟨used, rfl, hi, fun depth hd => Scan.skip_reads_of_length hi hd rest⟩

/-- **Typed reader and untyped skipper agree on where items end.** Whatever a value of a type, an
    item of a shape with its tag, or an item by its kind uses up is one item, and with nesting for
    each of its bytes the skipper stops at the same byte. On the bytes of one item a union trial
    leaves nothing, and no failure of any nesting says that it did. -/
theorem Codec.read_stops_where_skip_stops (c : Codec) (o : DecodeOptions) (depth : Nat)
    (bytes rest : Bytes) :
    (∀ t v, (c.read o depth t bytes).result = .ok (v, rest) →
      ∃ used, bytes = used ++ rest ∧ IsItem used ∧
        ∀ levels, used.length ≤ levels → Scan.skip levels bytes = (.ok (), rest)) ∧
    (∀ (s : Shape) parts, (s.readItem (c.reading o depth) c.catalog bytes).result =
      .ok (parts, rest) →
      ∃ used, bytes = used ++ rest ∧ IsItem used ∧
        ∀ levels, used.length ≤ levels → Scan.skip levels bytes = (.ok (), rest)) ∧
    (∀ (s : Shape) parts, (s.readKind (c.reading o depth) c.catalog bytes).result =
      .ok (parts, rest) →
      ∃ used, bytes = used ++ rest ∧ IsItem used ∧
        ∀ levels, used.length ≤ levels → Scan.skip levels bytes = (.ok (), rest)) ∧
    (∀ t levels span, Scan.item levels bytes = (.ok span, rest) →
      ∀ v left, (c.read o depth t span).result = .ok (v, left) → left = []) ∧
    (∀ t e, (c.read o depth t bytes).result = .error e →
      ∀ count, ¬ e.Contains (.trailingBytes count)) := by
  have hr := c.sound o depth
  refine ⟨fun t v h => ?_, fun s parts h => ?_, fun s parts h => ?_, ?_, fun t e h => ?_⟩
  · exact ((hr t).mono fun _ _ _ h => h.1).skips h
  · exact ((readItem_yields hr s c.catalog).mono fun _ _ _ h => h.item).skips h
  · exact ((readKind_yields hr s c.catalog).mono fun _ _ _ h => h.item).skips h
  · intro t levels span hitem v left hread
    obtain ⟨_, _, _, rfl, hi⟩ := Scan.item_yields levels bytes span rest hitem
    obtain ⟨used, hspan, _, hu⟩ := hr t span v left hread
    have heq : span ++ [] = used ++ left := by rw [List.append_nil, hspan]
    obtain rfl := hi.isItem.eq_of_append hu.1 heq
    simpa using hspan
  · exact (c.read_orderly o depth t h).trailing

/-- Behind a list of one integer both stop at the byte `07`. -/
theorem Codec.skip_stops_behind_a_list :
    let c : Catalog := { declared := fun _ => {}, printName := fun _ => "list" }
    ∃ v, (c.codec.read {} 3 (.list .uint64) [0x81, 0x01, 0x07]).result = .ok (v, [0x07]) ∧
      Scan.skip 3 [0x81, 0x01, 0x07] = (.ok (), [0x07]) := by
  intro c
  have hread : (c.codec.read {} 3 (.list .uint64) [0x81, 0x01, 0x07]).result =
      .ok (.ofItems .uint64 [.ofScalar .uint64 (.uint 1)], [0x07]) := rfl
  obtain ⟨used, hused, _, hskip⟩ :=
    (c.codec.read_stops_where_skip_stops {} 3 [0x81, 0x01, 0x07] [0x07]).1 _ _ hread
  refine ⟨_, hread, hskip 3 ?_⟩
  have hlength := congrArg List.length hused
  simp only [List.length_cons, List.length_nil, List.length_append] at hlength
  omega

end CborSchema
