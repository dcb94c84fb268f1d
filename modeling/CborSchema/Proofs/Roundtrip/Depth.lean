import CborSchema.Proofs.Roundtrip.Follows
import CborSchema.Proofs.Roundtrip.Values

/-!
# The nesting that decoding takes

A writer counts one level for each value. A reader counts the same, but where a union stands it
first passes over a whole item, and counts the levels of the item: its tags and the pair behind the
general tag of a constructor too.

* `Value.KeepsNothing`, `Catalog.UnionFits`, `Catalog.UnionsFit` -- values without kept bytes, and
  unions at which the item fits the levels that are left;
* `UnionAt.follow` -- a union that fits is read with less nesting, as the same candidate;
* `read_with_less` -- the induction on the nesting that is left to the writer;
* `Catalog.encoding_depth_suffices` -- **what the writer takes as not too deep is not too deep for
  the reader**, where unions fit; `encoding_depth_is_refused` has two unions that do not.
-/

namespace CborSchema

open Decoder

variable {c : Catalog} {o : EncodeOptions} {o' : DecodeOptions} {t : TypeExpr}

/-! ## 1. Values -/

/-- No bytes are kept at any path in a value. -/
def Value.KeepsNothing (v : Value) : Prop := ∀ path y, v.at? path = some y → y.notes.raw = none

theorem Value.KeepsNothing.keepsItems {v : Value} (h : v.KeepsNothing) : v.KeepsItems := by
  intro path y raw hy hraw
  rw [h path y hy] at hraw
  cases hraw

theorem Value.KeepsNothing.part {v z : Value} (h : v.KeepsNothing) (hz : z ∈ v.content.parts) :
    z.KeepsNothing := (Value.forall_at.mp h).2 z hz

theorem Value.KeepsNothing.of_parts {v : Value} (hv : v.notes.raw = none)
    (hparts : ∀ z ∈ v.content.parts, z.KeepsNothing) : v.KeepsNothing :=
  Value.forall_at.mpr ⟨hv, hparts⟩

/-- The item of a candidate fits where its union is read, with `n` levels below the union left to
    the writer and as many or `d` more left to a reader:

    * the item nests in the levels that are left at the union, whatever it consists of;
    * with either nesting, the first candidate of the union that reads it is its own. -/
structure Catalog.UnionFits (c : Catalog) (o : EncodeOptions) (o' : DecodeOptions) (n d : Nat)
    (v : Value) : Prop where
  nests : ∀ z x, v.content = .variant z → c.codec.WrittenTo o n z x → Item (n + 1) x
  first : ∀ s z x, c.resolve v.type = .ok s → v.content = .variant z → c.codec.WrittenTo o n z x →
    ∀ k, k = n ∨ k = n + d → ∀ y, Wins (c.codec.reading o' k) x s.candidates y → y.type = z.type

/-- A value of no union fits. -/
theorem Catalog.UnionFits.of_content {n d : Nat} {v : Value} (h : ∀ z, v.content ≠ .variant z) :
    c.UnionFits o o' n d v :=
  ⟨fun z _ hz => absurd hz (h z), fun _ z _ _ hz => absurd hz (h z)⟩

/-- At every path in a value stands one that fits if it is of a union; `depth` is the nesting that
    is left to the writer, and a reader may have `d` levels more. -/
def Catalog.UnionsFit (c : Catalog) (o : EncodeOptions) (o' : DecodeOptions) (depth d : Nat)
    (v : Value) : Prop :=
  ∀ path y below, v.at? path = some y → depth = path.length + (below + 1) →
    c.UnionFits o o' below d y

theorem Catalog.UnionsFit.part {depth d : Nat} {v z : Value} (h : c.UnionsFit o o' (depth + 1) d v)
    (hz : z ∈ v.content.parts) : c.UnionsFit o o' depth d z :=
  (Value.forall_below.mp h).2 z hz

theorem Catalog.UnionsFit.of_parts {depth d : Nat} {v : Value} (hv : c.UnionFits o o' depth d v)
    (hparts : ∀ z ∈ v.content.parts, c.UnionsFit o o' depth d z) :
    c.UnionsFit o o' (depth + 1) d v := Value.forall_below.mpr ⟨hv, hparts⟩

/-! ## 2. Unions -/

/-- Some candidate takes an item that one of them reads, where none is faulty. -/
theorem exists_wins {r : Reading} {x : Bytes} {ts : List TypeExpr} {u : TypeExpr} {v : Value}
    (hu : u ∈ ts) (hv : ((r.part u).whole x).result = .ok v)
    (hc : ∀ u' ∈ ts, ∀ e, ((r.part u').whole x).result = .error e → ∀ g, e ≠ .config g) :
    ∃ y, Wins r x ts y := by
  induction ts with
  | nil => cases hu
  | cons u' ts ih =>
    obtain ⟨hhead, hrest⟩ := List.forall_mem_cons.mp hc
    cases htrial : ((r.part u').whole x).result with
    | ok y => exact ⟨y, .here htrial⟩
    | error e =>
      have hmem : u ∈ ts := by
        rcases List.mem_cons.mp hu with rfl | hmem
        · rw [hv] at htrial
          cases htrial
        · exact hmem
      obtain ⟨y, hy⟩ := ih hmem hrest
      exact ⟨y, .later htrial (hhead e htrial) hy⟩

theorem pieces_variant {v z : Value} {p : Pieces} (h : c.pieces t v = .ok p)
    (hp : p.content = .variant z) : v.content = .variant z := by
  rcases (pieces_as h).content with hc | ⟨_, _, _, _, hy⟩
  · exact hc.symm.trans hp
  · cases hy.symm.trans hp

/-- **A union that fits is read with less nesting**, as the same value of the same candidate. -/
theorem Shape.UnionAt.follow {n d : Nat} {v : Value} {p : Pieces} {s : Shape} {x : Bytes}
    {parts : Parts} (hc : ∀ u, c.Reaches t u → ∃ s, c.resolve u = .ok s) (ht : c.Reaches t v.type)
    (hs : c.resolve v.type = .ok s) (hp : c.pieces v.type v = .ok p) (hfit : c.UnionFits o o' n d v)
    (hf : (c.codec.reading o' n).Follows (c.codec.reading o' (n + d)) (c.codec.writing o n) x.length
      p.content.parts) (hw : s.UnionAs (c.codec.writing o n) p x)
    (h : s.UnionAt (c.codec.reading o' (n + d)) parts x) :
    s.UnionAt (c.codec.reading o' n) parts x := by
  cases hw with
  | mk hcontent hmem hz =>
    rename_i z
    have hcontent' := pieces_variant hp hcontent
    cases h with
    | mk hi hwins =>
      rename_i y
      -- with more nesting the candidate that was written wins, and what it reads it reads with less
      -- too
      have hdeep : y.type = z.type := hfit.first s z x hs hcontent' hz.writes _ (.inr rfl) y hwins
      obtain ⟨hpart, _⟩ := hwins.partAt (c.codec.sound o' (n + d))
      rw [hdeep] at hpart
      have hparts : z ∈ p.content.parts := by
        rw [hcontent]
        exact List.mem_singleton.mpr rfl
      have hread := hf.part z hparts _ _ _ (Nat.le_refl _) hz hpart
      -- so some candidate wins with less, and this is no other
      obtain ⟨y', hwins'⟩ := exists_wins hmem hread.reads.whole fun u' hu' e he =>
        candidate_noConfig hc ht hs hu' hpart.item he
      have hshallow := hfit.first s z x hs hcontent' hz.writes _ (.inl rfl) y' hwins'
      obtain ⟨hpart', _⟩ := hwins'.partAt (c.codec.sound o' n)
      rw [hshallow] at hpart'
      obtain rfl := hpart'.reads.unique hread.reads
      exact .mk (hfit.nests z x hcontent' hz.writes) hwins'

/-! ## 3. Values -/

/-- **What is read with more nesting is read with the nesting it was written with**, by induction on
    this. -/
theorem read_with_less (hc : ∀ u, c.Reaches t u → ∃ s, c.resolve u = .ok s) {n d : Nat}
    {v y : Value} {b : Bytes} (ht : c.Reaches t v.type) (hraw : v.KeepsNothing)
    (hfit : c.UnionsFit o o' n d v) (hb : c.codec.WrittenTo o n v b) (hlen : b.length < UInt64.size)
    (hy : (c.codec.read o' (n + d) v.type).Reads b y) : (c.codec.read o' n v.type).Reads b y := by
  induction n generalizing v y b with
  | zero => exact absurd hb Codec.not_writes_zero
  | succ n ih =>
    rw [Nat.add_right_comm] at hy
    have hw := Codec.write_eq_ok.mp hb
    cases hw with
    | replayed hs hp htype hr =>
      rw [hraw [] v rfl] at hr
      cases hr
    | taken hs hr hp hk =>
      rename_i s p u
      rw [List.length_append] at hlen
      -- the parts come from one level below on both sides, so the surplus `d` stays as it is
      cases Codec.readAt_of_reads (c.codec.sound o' (n + d)) hy with
      | mk hs' hkept hv =>
        obtain rfl := Except.ok.inj (hs.symm.trans hs')
        have hs : c.resolve v.type = .ok s := hs
        have hfollows : (c.codec.reading o' n).Follows (c.codec.reading o' (n + d))
            (c.codec.writing o n) u.length p.content.parts := by
          refine ⟨rfl, fun z hz t x hx hpart => ?_, fun z hz t x y hx hpart hread => ?_⟩
          · rw [pieces_parts hp] at hz
            obtain rfl := hpart.type
            exact written_item hpart.writes (hraw.part hz).keepsItems (by omega)
          · have hreach : c.Reaches _ z.type := .part ht hs (hk.part_type hz)
            rw [pieces_parts hp] at hz
            obtain rfl := hpart.type
            exact ⟨ih hreach (hraw.part hz) (hfit.part hz) hpart.writes (by omega) hread.reads,
              hread.item, hread.type⟩
        have hunion := hfit [] v n rfl (by rw [List.length_nil, Nat.zero_add])
        refine Codec.read_reads (.mk hs' ?_ hv)
        exact hk.followKept (resolve_check hs).1 hfollows (by omega)
          (fun parts hu hat => hat.follow hc ht hs hp hunion hfollows hu) hkept

/-- **What the writer takes as not too deep is not too deep for the reader**, where unions fit. Let
    all types below a type resolve, and let a value of it that keeps no bytes encode at some depth.
    Let the item at each union in it nest in the levels that are left at the union, and be read
    first as its own candidate, at this depth as at a larger one. If the bytes decode at the larger
    depth, they decode to the same value at the depth they were written with. -/
theorem Catalog.encoding_depth_suffices (c : Catalog) (t : TypeExpr)
    (hc : ∀ u, c.Reaches t u → ∃ s, c.resolve u = .ok s) (o : EncodeOptions) (o' : DecodeOptions)
    (hdepth : o.maxDepth ≤ o'.maxDepth) (v : Value) (ht : v.type = t) (hraw : v.KeepsNothing)
    (hfit : c.UnionsFit o o' o.maxDepth (o'.maxDepth - o.maxDepth) v) (b : Bytes)
    (hb : (c.codec.encode v o).result = .ok b) (hlen : b.length < UInt64.size) (y : Value)
    (hy : (c.codec.decode t b o').result = .ok y) :
    (c.codec.decode t b { o' with maxDepth := o.maxDepth }).result = .ok y := by
  subst ht
  have hitem : IsItem b := written_item (n := o.maxDepth) hb hraw.keepsItems hlen
  have hdeep : (c.codec.read o' (o.maxDepth + (o'.maxDepth - o.maxDepth)) v.type).Reads b y := by
    rw [Nat.add_sub_cancel' hdepth]
    exact (decode_item hitem).mp hy
  have hread := read_with_less hc .refl hraw hfit hb hlen hdeep
  have hlengths : o'.SameLengths { o' with maxDepth := o.maxDepth } := ⟨rfl, rfl⟩
  exact (decode_item hitem).mpr (Codec.read_reads_sameLengths hlengths hread)

/-- A constructor in its general form, which nests four levels deep and is written with as many,
    behind a candidate that does not read it. -/
theorem Catalog.general_constructor_fits :
    let c : Catalog := {
      declared := fun name =>
        if name = "union" then
          { schema := (Schema.union.withCandidate .uint64).withCandidate (.named "entry") }
        else { schema := (Schema.constructor 200).withValue (.int 0) .uint64 .required }
      printName := fun _ => "type" }
    let one : Value := .ofScalar .uint64 (.uint 1)
    let entry (notes : Notes) : Value := .node (.named "entry") (.fields [some one]) notes
    let union (notes : Notes) : Value := .node (.named "union") (.variant (entry notes)) {}
    let b : Bytes := [0xd8, 0x66, 0x82, 0x18, 0xc8, 0x81, 0x01]
    (c.codec.encode (union {}) { maxDepth := 4 }).result = .ok b ∧
      (c.codec.decode (.named "union") b { maxDepth := 4 }).result =
        .ok (union { alternative := some 200 }) := by
  intro c one entry union b
  let types : List TypeExpr := [.named "union", .named "entry", .uint64]
  have htypes : ∀ u ∈ types, ∃ s, c.resolve u = .ok s ∧ ∀ u' ∈ s.partTypes, u' ∈ types := by
    simp only [types, List.forall_mem_cons]
    exact ⟨⟨_, rfl, by decide⟩, ⟨_, rfl, by decide⟩, ⟨_, rfl, by decide⟩, by simp⟩
  have hresolves : ∀ u, c.Reaches (.named "union") u → ∃ s, c.resolve u = .ok s := by
    intro u hu
    obtain ⟨s, hs, _⟩ := htypes u (hu.mem_of_closed (by decide) htypes)
    exact ⟨s, hs⟩
  have hraw : (union {}).KeepsNothing := by
    refine .of_parts rfl fun z hz => ?_
    obtain rfl := List.mem_singleton.mp hz
    refine .of_parts rfl fun z hz => ?_
    obtain rfl := List.mem_singleton.mp hz
    exact .of_parts rfl fun z hz => by cases hz
  have hitem : Item 4 b := by
    obtain ⟨u, hu, _, hitem⟩ := Scan.skip_yields 3 b () [] (by cbv)
    rw [List.append_nil] at hu
    exact hu ▸ hitem
  have hentry : ∀ x, c.codec.WrittenTo { maxDepth := 4 } 3 (entry {}) x → x = b := by
    intro x hx
    have hb : c.codec.WrittenTo { maxDepth := 4 } 3 (entry {}) b := by cbv
    exact Except.ok.inj (hx.symm.trans hb)
  have hfit : c.UnionFits { maxDepth := 4 } { maxDepth := 5 } 3 1 (union {}) := by
    refine ⟨fun z x hz hx => ?_, fun s z x hs hz hx k hk y hy => ?_⟩
    · cases hz
      rw [hentry x hx]
      exact hitem
    · cases hz
      cases hs
      have hy : Wins (c.codec.reading { maxDepth := 5 } k) b [.uint64, .named "entry"] y :=
        hentry x hx ▸ hy
      cases hy with
      | here hread =>
        have hnone : (((c.codec.reading { maxDepth := 5 } k).part
            .uint64).whole b).result.toOption = none := by
          rcases hk with rfl | rfl
          · cbv
          · cbv
        rw [hread] at hnone
        cases hnone
      | later _ _ hwins =>
        exact List.mem_singleton.mp (hwins.partAt (c.codec.sound _ k)).2
  have hfits : c.UnionsFit { maxDepth := 4 } { maxDepth := 5 } 4 1 (union {}) := by
    refine .of_parts hfit fun z hz => ?_
    obtain rfl := List.mem_singleton.mp hz
    refine .of_parts (.of_content fun z => by simp [entry, Value.content]) fun z hz => ?_
    obtain rfl := List.mem_singleton.mp hz
    refine .of_parts (.of_content fun z => by simp [one, Value.ofScalar, Value.content])
      fun z hz => ?_
    cases hz
  have hencode : (c.codec.encode (union {}) { maxDepth := 4 }).result = .ok b := by cbv
  have hdecode : (c.codec.decode (.named "union") b { maxDepth := 5 }).result =
      .ok (union { alternative := some 200 }) := by cbv
  exact ⟨hencode, c.encoding_depth_suffices _ hresolves { maxDepth := 4 } { maxDepth := 5 }
    (by decide)
    (union {}) rfl hraw hfits b hencode (by decide) _ hdecode⟩

/-- Not every union fits. A constructor in its general form takes four levels to pass over, but its
    values take two; and entries that repeat a key are refused, but passed over by a map that is
    open to any keys, three unions deep. Either encodes with three levels and decodes with four, but
    not with three. -/
theorem Catalog.encoding_depth_is_refused :
    let c : Catalog := {
      declared := fun name =>
        if name = "union" then { schema := Schema.union.withCandidate (.named "entry") }
        else if name = "entry" then
          { schema := (Schema.constructor 200).withValue (.int 0) .uint64 .required }
        else if name = "either" then
          { schema := (Schema.union.withCandidate (.named "outer")).withCandidate (.named "pairs") }
        else if name = "outer" then { schema := Schema.union.withCandidate (.named "inner") }
        else if name = "inner" then { schema := Schema.union.withCandidate (.named "open") }
        else if name = "open" then
          { schema := (Schema.map.withValue (.int 9) .uint64 .optional).allowingExtras }
        else { schema := Schema.map.withEntries .uint64 .uint64 }
      printName := fun _ => "type" }
    let o (depth : Nat) : DecodeOptions := {
      maxDepth := depth
      maxCollectionLength := largestLength
      maxStringLength := largestLength }
    let refused (t : TypeExpr) (v : Value) (b : Bytes) : Prop :=
      (∀ u, c.Reaches t u → ∃ s, c.resolve u = .ok s) ∧ v.type = t ∧ v.KeepsNothing ∧
        (c.codec.encode v { maxDepth := 3 }).result = .ok b ∧
        (∃ y, (c.codec.decode t b (o 4)).result = .ok y) ∧
        ∀ y, (c.codec.decode t b (o 3)).result ≠ .ok y
    let one : Value := .ofScalar .uint64 (.uint 1)
    let entry : Value := .node (.named "entry") (.fields [some one]) {}
    let pairs : Value := .node (.named "pairs") (.entries [(one, one), (one, one)]) {}
    refused (.named "union") (.node (.named "union") (.variant entry) {})
        [0xd8, 0x66, 0x82, 0x18, 0xc8, 0x81, 0x01] ∧
      refused (.named "either") (.node (.named "either") (.variant pairs) {})
        [0xa2, 0x01, 0x01, 0x01, 0x01] := by
  intro c o refused one entry pairs
  have hone : one.KeepsNothing := .of_parts rfl fun z hz => by cases hz
  have hentry : entry.KeepsNothing := by
    refine .of_parts rfl fun z hz => ?_
    obtain rfl := List.mem_singleton.mp hz
    exact hone
  have hpairs : pairs.KeepsNothing := by
    refine .of_parts rfl fun z hz => ?_
    have hz : z ∈ [one, one, one, one] := hz
    obtain rfl : z = one := by simpa using hz
    exact hone
  have hunion : ∀ {name : String} {z : Value}, z.KeepsNothing →
      Value.KeepsNothing (.node (.named name) (.variant z) {}) := by
    intro name z hz
    refine .of_parts rfl fun z' hz' => ?_
    obtain rfl := List.mem_singleton.mp hz'
    exact hz
  let types : List TypeExpr := [.named "union", .named "entry", .named "either", .named "outer",
    .named "inner", .named "open", .named "pairs", .uint64]
  have htypes : ∀ u ∈ types, ∃ s, c.resolve u = .ok s ∧ ∀ u' ∈ s.partTypes, u' ∈ types := by
    simp only [types, List.forall_mem_cons]
    refine ⟨⟨_, rfl, by decide⟩, ⟨_, rfl, by decide⟩, ⟨_, rfl, by decide⟩, ⟨_, rfl, by decide⟩,
      ⟨_, rfl, by decide⟩, ⟨_, rfl, by decide⟩, ⟨_, rfl, by decide⟩, ⟨_, rfl, by decide⟩, by simp⟩
  have hresolves : ∀ t ∈ types, ∀ u, c.Reaches t u → ∃ s, c.resolve u = .ok s := by
    intro t ht u hu
    obtain ⟨s, hs, _⟩ := htypes u (hu.mem_of_closed ht htypes)
    exact ⟨s, hs⟩
  let read : Value := .node (.named "entry") (.fields [some one]) { alternative := some 200 }
  let passed : Value := .node (.named "open") (.fields [none]) {}
  let outer : Value :=
    .node (.named "outer") (.variant (.node (.named "inner") (.variant passed) {})) {}
  refine ⟨⟨hresolves _ (by decide), rfl, hunion hentry, by cbv,
      ⟨.node (.named "union") (.variant read) {}, by cbv⟩, fun y hy => ?_⟩,
    ⟨hresolves _ (by decide), rfl, hunion hpairs, by cbv,
      ⟨.node (.named "either") (.variant outer) {}, by cbv⟩, fun y hy => ?_⟩⟩
  · have hnone : (c.codec.decode (.named "union") [0xd8, 0x66, 0x82, 0x18, 0xc8, 0x81, 0x01]
        (o 3)).result.toOption = none := by cbv
    rw [hy] at hnone
    cases hnone
  · have hnone : (c.codec.decode (.named "either") [0xa2, 0x01, 0x01, 0x01, 0x01]
        (o 3)).result.toOption = none := by cbv
    rw [hy] at hnone
    cases hnone

end CborSchema
