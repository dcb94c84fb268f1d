import CborSchema.Proofs.Decode.Rests
import CborSchema.Proofs.Decode.Unique
import CborSchema.Proofs.Roundtrip.Values

/-!
# Decoding with larger limits

A limit that is exceeded ends a run, but in a union it only ends the trial of a candidate, and the
next one is tried. So a larger limit may give an earlier candidate the item of a later one, and it
does nothing else.

* `DecodeOptions.Within` -- options with limits that are no smaller;
* `Shape.PartRead`, `Catalog.Meets` -- what is read on the way to a value: the parts that its item
  rests on, and the candidate that takes the item of a union;
* `Catalog.UnionStands`, `Catalog.UnionsStand` -- no candidate before the one taken decodes the item
  with the larger limits;
* `read_within` -- what is read is read with larger limits, by induction on the nesting that is
  left;
* `Catalog.larger_limits_keep_value` -- **limits only reject where unions stand**, and so they do
  for types that reach no union; `Catalog.larger_limit_changes_candidate` has unions that do not.
-/

namespace CborSchema

open Decoder

variable {c : Catalog} {o o' : DecodeOptions} {d n : Nat} {t : TypeExpr}

/-! ## 1. Parts that are read -/

/-- Options with limits that are no smaller, and with bytes allowed behind the item by both or
    neither. -/
structure DecodeOptions.Within (o o' : DecodeOptions) : Prop extends o.LengthsWithin o' where
  trailing : o.allowTrailing = o'.allowTrailing
  depth : o.maxDepth ≤ o'.maxDepth

/-- A type is read off these bytes as a part of an item: a union reads its candidate off all of the
    item, and any other item rests on its parts, on each place of a shortest list. -/
inductive Shape.PartRead (s : Shape) (r : Reading) (p : Parts)
    (u : Bytes) : TypeExpr → Bytes → Prop where
  | candidate {y : Value} (hk : s.kind = .union) (hw : Wins r u s.candidates y) :
      PartRead s r p u y.type u
  | place {places : List (TypeExpr × Bytes)} {t : TypeExpr} {x : Bytes} (hk : s.kind ≠ .union)
      (hrests : r.RestsOn s.partTypes (fun r => s.KeptAt r p u) places)
      (hleast : ∀ places', r.RestsOn s.partTypes (fun r => s.KeptAt r p u) places' →
        places.length ≤ places'.length)
      (hmem : (t, x) ∈ places) : PartRead s r p u t x

/-- A type that is read off bytes, with that nesting left, reads another one on the way, off its
    bytes and with what nesting is left there. -/
inductive Catalog.Meets (c : Catalog) (o : DecodeOptions) :
    Nat → TypeExpr → Bytes → Nat → TypeExpr → Bytes → Prop where
  | here {n : Nat} {t : TypeExpr} {u : Bytes} : Meets c o n t u n t u
  | part {n m : Nat} {t t' t'' : TypeExpr} {u x w : Bytes} {s : Shape} {p : Parts}
      (hs : c.resolve t = .ok s) (hk : s.KeptAt (c.codec.reading o n) p u)
      (hp : s.PartRead (c.codec.reading o n) p u t' x) (h : Meets c o n t' x m t'' w) :
      Meets c o (n + 1) t u m t'' w

theorem Shape.PartRead.type {s : Shape} {r : Reading} {p : Parts} {u x : Bytes} (hr : r.Sound)
    (h : s.PartRead r p u t x) : t ∈ s.partTypes := by
  cases h with
  | candidate _ hw => exact Shape.candidate_mem (hw.partAt hr).2
  | place _ hrests _ hmem => exact hrests.types _ hmem

/-- What is read on the way is of a type below. -/
theorem Catalog.Meets.reaches {m : Nat} {t' : TypeExpr} {u w : Bytes} (h : c.Meets o n t u m t' w)
    {root : TypeExpr} (ht : c.Reaches root t) : c.Reaches root t' := by
  induction h with
  | here => exact ht
  | part hs _ hp _ ih => exact ih (.part ht hs (hp.type (c.codec.sound o _)))

/-! ## 2. Unions -/

/-- If the type is a union that takes the item with `n` levels left below it, then no candidate
    declared before the one taken decodes the item under other options, with `d` levels more. -/
def Catalog.UnionStands (c : Catalog) (o o' : DecodeOptions) (d n : Nat) (t : TypeExpr)
    (u : Bytes) : Prop :=
  ∀ s y, c.resolve t = .ok s → s.kind = .union → Wins (c.codec.reading o n) u s.candidates y →
    ∀ t' ∈ s.candidates.takeWhile (· ≠ y.type), ∀ z, c.codec.trial o' (n + d) t' u ≠ .ok z

/-- Every union that is read on the way stands. -/
def Catalog.UnionsStand (c : Catalog) (o o' : DecodeOptions) (d n : Nat) (t : TypeExpr)
    (u : Bytes) : Prop :=
  ∀ m t' w, c.Meets o n t u (m + 1) t' w → c.UnionStands o o' d m t' w

/-- Unions stand where the type itself does, if it is one, and those below it do. -/
theorem Catalog.UnionsStand.of_parts {u : Bytes} (hstands : c.UnionStands o o' d n t u)
    (hparts : ∀ s, c.resolve t = .ok s → ∀ t' ∈ s.partTypes, ∀ x, c.UnionsStand o o' d n t' x) :
    c.UnionsStand o o' d (n + 1) t u := by
  intro m t' w hm
  cases hm with
  | here => exact hstands
  | part hs _ hp hm => exact hparts _ hs _ (hp.type (c.codec.sound o n)) _ m t' w hm

/-- **Limits only reject for a type with no union below it**: there is none that might not stand. -/
theorem Catalog.UnionsStand.of_no_union
    (hno : ∀ t' s, c.Reaches t t' → c.resolve t' = .ok s → s.kind ≠ .union) (u : Bytes) :
    c.UnionsStand o o' d n t u :=
  fun _ t' _ hm s _ hs hk => absurd hk (hno t' s (hm.reaches .refl) hs)

/-- A union is read by its candidates alone: it has no tag and keeps no bytes. -/
theorem Shape.KeptAt.unionAt {s : Shape} {r : Reading} {p : Parts} {u : Bytes}
    (hs : s.check t = .ok ()) (hk : s.kind = .union) (h : s.KeptAt r p u) : s.UnionAt r p u := by
  obtain ⟨htag, hraw, _, _⟩ := check_union hs hk
  cases h with
  | kept hp _ => cases hraw.symm.trans hp
  | dropped _ hi =>
    cases hi with
    | untagged _ h =>
      cases h.unionAt hk with
      | mk hi hw => exact .mk hi hw
    | absent ht _ _ _ => cases htag.symm.trans ht
    | tagged ht _ _ _ _ => cases htag.symm.trans ht

theorem Shape.UnionAt.keptAt {s : Shape} {r : Reading} {p : Parts} {u : Bytes}
    (hs : s.check t = .ok ()) (hk : s.kind = .union) (h : s.UnionAt r p u) : s.KeptAt r p u := by
  obtain ⟨htag, hraw, _, _⟩ := check_union hs hk
  cases h with
  | mk hi hw => exact .dropped hraw (.untagged htag (.union hk (.mk hi hw)))

/-- **A union that stands is read with larger limits**, as the same value of the same candidate. -/
theorem Shape.UnionAt.within {s : Shape} {root : TypeExpr} {p : Parts} {u : Bytes}
    (hc : ∀ t, c.Reaches root t → ∃ s, c.resolve t = .ok s) (ht : c.Reaches root t)
    (hs : c.resolve t = .ok s) (hk : s.kind = .union) (hstands : c.UnionStands o o' d n t u)
    (hread : ∀ y, Wins (c.codec.reading o n) u s.candidates y →
      (c.codec.read o' (n + d) y.type).Reads u y)
    (h : s.UnionAt (c.codec.reading o n) p u) : s.UnionAt (c.codec.reading o' (n + d)) p u := by
  cases h with
  | mk hi hw =>
    rename_i y
    obtain ⟨hpart, hmem⟩ := hw.partAt (c.codec.sound o n)
    refine .mk (hi.mono (Nat.succ_le_succ (Nat.le_add_right n d))) ?_
    refine wins_of_first hmem (fun t' ht' => ?_) (hread y hw).whole
    have hcandidate : t' ∈ s.candidates := (List.takeWhile_prefix _).subset ht'
    cases htrial : (((c.codec.reading o' (n + d)).part t').whole u).result with
    | ok z =>
      have hz := ((c.codec.sound o' (n + d)) t').whole htrial
      exact absurd (Codec.trial_of_reads hz.1) (hstands s y hs hk hw t' ht' z)
    | error e =>
      exact ⟨e, rfl, candidate_noConfig hc ht hs hcandidate hpart.item htrial⟩

/-! ## 3. Values -/

/-- **What is read is read with larger limits where unions stand**, by induction on the nesting that
    is left. The surplus of nesting is the same at every level. -/
theorem read_within {root : TypeExpr} (hc : ∀ t, c.Reaches root t → ∃ s, c.resolve t = .ok s)
    (ho : o.LengthsWithin o') (ht : c.Reaches root t) {v : Value} {u : Bytes}
    (hunions : c.UnionsStand o o' d n t u) (h : (c.codec.read o n t).Reads u v) :
    (c.codec.read o' (n + d) t).Reads u v := by
  induction n generalizing t v u with
  | zero => exact absurd h Codec.not_reads_zero
  | succ n ih =>
    have hr := c.codec.sound o n
    cases Codec.readAt_of_reads hr h with
    | mk hs hk hv =>
      rename_i s p
      have hcheck := (resolve_check hs).1
      have hparts : ∀ {t' x z}, s.PartRead (c.codec.reading o n) p u t' x →
          (c.codec.read o n t').Reads x z → (c.codec.read o' (n + d) t').Reads x z := by
        intro t' x z hp hz
        exact ih (.part ht hs (hp.type hr)) (fun m t'' w hm =>
          hunions m t'' w (.part hs hk hp hm)) hz
      have hk' : s.KeptAt (c.codec.reading o' (n + d)) p u := by
        by_cases hkind : s.kind = .union
        · have hstands := hunions n t u .here
          refine Shape.UnionAt.keptAt hcheck hkind ?_
          refine (hk.unionAt hcheck hkind).within hc ht hs hkind hstands fun y hw => ?_
          exact hparts (.candidate hkind hw) (hw.partAt hr).1.reads
        · obtain ⟨places, hrests, hleast⟩ := (hk.rests hkind).shortest
          refine hrests.enough _ ⟨ho, Nat.le_add_right n d⟩ fun e he z hz => ?_
          exact ⟨hparts (.place hkind hrests hleast he) hz.reads, hz.item, hz.type⟩
      rw [Nat.add_right_comm]
      exact Codec.read_reads (.mk hs hk' hv)

/-- **Limits only reject where unions stand.** Let all types below a type resolve, and let bytes
    decode to a value under some limits. Take limits that are no smaller, and suppose that at every
    union that was read on the way no candidate before the one taken decodes the item of the union
    with them and with the nesting that they leave there. Then the bytes decode to the same
    value. -/
theorem Catalog.larger_limits_keep_value (c : Catalog) (t : TypeExpr)
    (hc : ∀ u, c.Reaches t u → ∃ s, c.resolve u = .ok s) (o o' : DecodeOptions) (ho : o.Within o')
    (b : Bytes) (v : Value) (hv : (c.codec.decode t b o).result = .ok v)
    (hunions : ∀ used, used <+: b →
      c.UnionsStand o o' (o'.maxDepth - o.maxDepth) o.maxDepth t used) :
    (c.codec.decode t b o').result = .ok v := by
  obtain ⟨used, rest, rfl, htrailing, hread⟩ := Codec.decode_eq_ok.mp hv
  have hdeep := read_within hc ho.toLengthsWithin .refl
      (hunions used (List.prefix_append used rest)) hread
  rw [Nat.add_sub_cancel' ho.depth] at hdeep
  exact Codec.decode_eq_ok.mpr ⟨used, rest, rfl, ho.trailing ▸ htrailing, hdeep⟩

/-- A list where the first candidate has a byte string: with more nesting left it still does not
    take the item, and the second does. -/
theorem Catalog.larger_limits_keep_second_candidate :
    let c : Catalog := {
      declared := fun name =>
        if name = "either" then
          { schema := (Schema.union.withCandidate (.named "pair")).withCandidate (.named "nest") }
        else if name = "pair" then
          { schema := (Schema.list.withValue (.int 0) .uint64 .required).withValue (.int 1) .bytes
              .required }
        else
          { schema := (Schema.list.withValue (.int 0) .uint64 .required).withValue (.int 1)
              (.list .uint64) .required }
      printName := fun _ => "type" }
    let b : Bytes := [0x82, 0x01, 0x83, 0x01, 0x02, 0x03]
    let numbers : Value := .ofItems .uint64 ([1, 2, 3].map fun n => .ofScalar .uint64 (.uint n))
    let nest : Value :=
      .node (.named "nest") (.fields [some (.ofScalar .uint64 (.uint 1)), some numbers]) {}
    let v : Value := .node (.named "either") (.variant nest) {}
    (c.codec.decode (.named "either") b { maxDepth := 4 }).result = .ok v ∧
      (c.codec.decode (.named "either") b { maxDepth := 5 }).result = .ok v := by
  intro c b numbers nest v
  let parts : List TypeExpr := [.named "pair", .named "nest", .list .uint64, .uint64, .bytes]
  have hparts : ∀ u ∈ parts, ∃ s, c.resolve u = .ok s ∧ s.kind ≠ .union ∧
      ∀ u' ∈ s.partTypes, u' ∈ parts := by
    simp only [parts, List.forall_mem_cons]
    refine ⟨⟨_, rfl, by decide, by decide⟩, ⟨_, rfl, by decide, by decide⟩,
      ⟨_, rfl, by decide, by decide⟩,
      ⟨_, rfl, by decide, by decide⟩, ⟨_, rfl, by decide, by decide⟩, by simp⟩
  have hclosed : ∀ t ∈ parts, ∀ u, c.Reaches t u → u ∈ parts := fun t ht u hu =>
    hu.mem_of_closed ht fun u hu => (hparts u hu).imp fun s hs => ⟨hs.1, hs.2.2⟩
  have hresolves : ∀ u, c.Reaches (.named "either") u → ∃ s, c.resolve u = .ok s := by
    refine Catalog.Reaches.resolves_of_closed (.named "either" :: parts) List.mem_cons_self ?_
    refine List.forall_mem_cons.mpr ⟨⟨_, rfl, by decide⟩, fun u hu => ?_⟩
    obtain ⟨s, hs, _, hclosed⟩ := hparts u hu
    exact ⟨s, hs, fun u' hu' => List.mem_cons_of_mem _ (hclosed u' hu')⟩
  have hitem : IsItem b := by
    obtain ⟨u, hu, _, hitem⟩ := Scan.skip_yields 3 b () [] (by cbv)
    rw [List.append_nil] at hu
    exact hu ▸ hitem.isItem
  have hstands : ∀ used, used <+: b →
      c.UnionStands { maxDepth := 4 } { maxDepth := 5 } 1 3 (.named "either") used := by
    rintro used ⟨rest, hused⟩ s y hs _ hw t' ht' z hz
    cases hs
    obtain rfl : used = b := (hw.partAt (c.codec.sound _ 3)).1.item.eq_of_append (v := []) hitem
      (hused.trans (List.append_nil b).symm)
    have hfirst : (firstCandidate (c.codec.reading { maxDepth := 4 } 3) c "" b []
        [.named "pair", .named "nest"]).result = .ok nest := by cbv
    obtain rfl : nest = y := Except.ok.inj (hfirst.symm.trans (firstCandidate_ok_iff.mpr hw))
    obtain rfl : t' = .named "pair" := List.mem_singleton.mp ht'
    have hnone : (c.codec.trial { maxDepth := 5 } 4 (.named "pair") b).toOption = none := by cbv
    have hz : c.codec.trial { maxDepth := 5 } 4 (.named "pair") b = .ok z := hz
    rw [hz] at hnone
    cases hnone
  have hv : (c.codec.decode (.named "either") b { maxDepth := 4 }).result = .ok v := by cbv
  refine ⟨hv, c.larger_limits_keep_value _ hresolves { maxDepth := 4 } { maxDepth := 5 }
    ⟨⟨by decide, by decide⟩, rfl, by decide⟩ b v hv fun used hused => ?_⟩
  refine .of_parts (hstands used hused) fun s hs t' ht' x => .of_no_union (fun u s' hu hs' => ?_) x
  cases hs
  have hmem : t' ∈ parts := by
    have ht' : t' ∈ [TypeExpr.named "pair", .named "nest"] := ht'
    exact List.mem_append_left [.list .uint64, .uint64, .bytes] ht'
  obtain ⟨s'', hs'', hkind, _⟩ := hparts u (hclosed t' hmem u hu)
  exact Except.ok.inj (hs''.symm.trans hs') ▸ hkind

/-- Not every union stands. A byte string or a list that is too long by one, or too deep by one
    level, is refused as part of a candidate, and passed over by a later one that is open to any
    elements. With the larger limit the earlier candidate takes the item. -/
theorem Catalog.larger_limit_changes_candidate :
    let c : Catalog := {
      declared := fun name =>
        if name = "either" then
          { schema := ((Schema.union.withCandidate (.named "pair")).withCandidate
              (.named "nest")).withCandidate (.named "open") }
        else if name = "pair" then
          { schema := (Schema.list.withValue (.int 0) .uint64 .required).withValue (.int 1) .bytes
              .required }
        else if name = "nest" then
          { schema := (Schema.list.withValue (.int 0) .uint64 .required).withValue (.int 1)
              (.list .uint64) .required }
        else { schema := (Schema.list.withValue (.int 0) .uint64 .required).allowingExtras }
      printName := fun _ => "type" }
    let changes (o o' : DecodeOptions) (b : Bytes) : Prop := o.Within o' ∧
      ∃ v v', (c.codec.decode (.named "either") b o).result = .ok v ∧
        (c.codec.decode (.named "either") b o').result = .ok v' ∧ v ≠ v'
    (∀ u, c.Reaches (.named "either") u → ∃ s, c.resolve u = .ok s) ∧
      changes { maxStringLength := 1 } { maxStringLength := 2 } [0x82, 0x01, 0x42, 0x01, 0x02] ∧
      changes { maxCollectionLength := 2 } { maxCollectionLength := 3 }
        [0x82, 0x01, 0x83, 0x01, 0x02, 0x03] ∧
      changes { maxDepth := 3 } { maxDepth := 4 } [0x82, 0x01, 0x83, 0x01, 0x02, 0x03] := by
  intro c changes
  let one : Value := .ofScalar .uint64 (.uint 1)
  let three : Value :=
    .ofItems .uint64 [one, .ofScalar .uint64 (.uint 2), .ofScalar .uint64 (.uint 3)]
  let either (name : String) (slots : List (Option Value)) : Value :=
    .node (.named "either") (.variant (.node (.named name) (.fields slots) {})) {}
  let types : List TypeExpr := [.named "either", .named "pair", .named "nest", .named "open",
    .list .uint64, .uint64, .bytes]
  have htypes : ∀ u ∈ types, ∃ s, c.resolve u = .ok s ∧ ∀ u' ∈ s.partTypes, u' ∈ types := by
    simp only [types, List.forall_mem_cons]
    refine ⟨⟨_, rfl, by decide⟩, ⟨_, rfl, by decide⟩, ⟨_, rfl, by decide⟩, ⟨_, rfl, by decide⟩,
      ⟨_, rfl, by decide⟩, ⟨_, rfl, by decide⟩, ⟨_, rfl, by decide⟩, by simp⟩
  have hne : ∀ {name : String} {slots : List (Option Value)}, name ≠ "open" →
      either "open" [some one] ≠ either name slots := by
    intro name slots hname h
    simp only [either, Value.node.injEq, Content.variant.injEq, TypeExpr.named.injEq] at h
    exact hname h.2.1.1.symm
  refine ⟨Catalog.Reaches.resolves_of_closed types (by decide) htypes, ?_, ?_, ?_⟩
  · exact ⟨⟨⟨by decide, by decide⟩, rfl, by decide⟩, either "open" [some one],
      either "pair" [some one, some (.ofScalar .bytes (.bytes [1, 2]))], by cbv, by cbv,
      hne (by decide)⟩
  · exact ⟨⟨⟨by decide, by decide⟩, rfl, by decide⟩, either "open" [some one],
      either "nest" [some one, some three], by cbv, by cbv, hne (by decide)⟩
  · exact ⟨⟨⟨by decide, by decide⟩, rfl, by decide⟩, either "open" [some one],
      either "nest" [some one, some three], by cbv, by cbv, hne (by decide)⟩

end CborSchema
