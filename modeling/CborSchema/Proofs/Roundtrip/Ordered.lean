import CborSchema.Proofs.Decode.Elements
import CborSchema.Proofs.Decode.Keys
import CborSchema.Proofs.Roundtrip.Presence
import CborSchema.Proofs.Roundtrip.Widths

/-!
# Maps in key order

An ordered map is read off entries in any order and under any spelling of their keys, and is written
in the order of its keys. Two checks keep keys apart, one of the bytes of a key, before its value is
read, and one of the keys that were decoded; together they refuse just what the second one would.

* `orderEntries_iff` -- entries can be put in order if their keys differ, and only then;
* `Ascending.eq_of_perm` -- the same entries stand in one ascending order only;
* `Row.entries_unique` -- the same bytes hold the same entries;
* `Catalog.PairsOnWire`, `PairsOnWire.reads_iff` -- which value is read off a map whose keys and
  values decode, if one is;
* `write_map_iff` -- which bytes an ordered map is written as;
* `Catalog.MapOfPairs`, `Catalog.ordered_map_is_its_entries` -- **an ordered map loses no entry and
  invents none.**
-/

namespace CborSchema

open Decoder

variable {c : Catalog} {key value : TypeExpr}

/-! ## 1. Entries in order -/

/-- A key that is none of those there can be put in its place. -/
theorem insertNew_of_new {cmp : Value → Value → Ordering} {k v : Value} {es : List (Value × Value)}
    (h : ∀ e ∈ es, cmp k e.1 ≠ .eq) : ∃ es', insertNew cmp k v es = some es' := by
  induction es with
  | nil => exact ⟨_, rfl⟩
  | cons e es ih =>
    obtain ⟨hfirst, hrest⟩ := List.forall_mem_cons.mp h
    rw [insertNew]
    cases hcmp : cmp k e.1 with
    | lt => exact ⟨_, rfl⟩
    | eq => exact absurd hcmp hfirst
    | gt =>
      obtain ⟨es', hes⟩ := ih hrest
      exact ⟨e :: es', by rw [hes]; rfl⟩

namespace Catalog.OrdersKeys

variable (h : c.OrdersKeys key)

include h

theorem self (a : Value) : c.compareKeys key a a = .eq :=
  Ordering.eq_eq_of_eq_swap (h.swap a a).symm

theorem ne_eq_symm {a b : Value} (hab : c.compareKeys key a b ≠ .eq) :
    c.compareKeys key b a ≠ .eq := by
  intro hba
  refine hab ?_
  rw [← h.swap, hba]
  rfl

/-- **Entries that are put in order stand in ascending order**, by induction on the entries that are
    left. -/
theorem ascending {position : Nat} {done es es' : List (Value × Value)}
    (hdone : Ascending (c.compareKeys key) done)
    (ho : orderEntries (c.compareKeys key) position done es = .ok es') :
    Ascending (c.compareKeys key) es' := by
  induction es generalizing position done with
  | nil =>
    cases ho
    exact hdone
  | cons e es ih =>
    rw [orderEntries] at ho
    split at ho
    · rename_i done' hi
      exact ih (insertNew_ascending h.swap h.trans hdone hi).1 ho
    · cases ho

/-- Entries with new keys that differ among each other can be put in order. -/
theorem orders {done es : List (Value × Value)} (position : Nat)
    (hnew : ∀ e ∈ es, ∀ d ∈ done, c.compareKeys key e.1 d.1 ≠ .eq)
    (hpair : es.Pairwise fun e e' => c.compareKeys key e.1 e'.1 ≠ .eq) :
    ∃ es', orderEntries (c.compareKeys key) position done es = .ok es' := by
  induction es generalizing position done with
  | nil => exact ⟨done, rfl⟩
  | cons e es ih =>
    obtain ⟨hfirst, hpair⟩ := List.pairwise_cons.mp hpair
    obtain ⟨hnewFirst, hnew⟩ := List.forall_mem_cons.mp hnew
    obtain ⟨done', hi⟩ := insertNew_of_new (v := e.2) hnewFirst
    rw [orderEntries, hi]
    refine ih (position + 1) (fun e' he' d hd => ?_) hpair
    -- the keys that are there now are those from before and the one just put in
    rcases List.mem_cons.mp ((insertNew_perm hi).mem_iff.mp hd) with rfl | hd
    · exact h.ne_eq_symm (hfirst e' he')
    · exact hnew e' he' d hd

/-- **Entries can be put in order if no two of their keys compare equal, and only then.** -/
theorem orderEntries_iff {es : List (Value × Value)} :
    (∃ es', orderEntries (c.compareKeys key) 0 [] es = .ok es') ↔
      es.Pairwise fun e e' => c.compareKeys key e.1 e'.1 ≠ .eq := by
  constructor
  · rintro ⟨es', ho⟩
    exact (orderEntries_distinct h.swap h.trans .nil ho).2.imp h.ne_eq_symm
  · exact h.orders 0 (by simp)

/-- **The same entries stand in one ascending order only.** -/
theorem eq_of_perm {es es' : List (Value × Value)} (hes : Ascending (c.compareKeys key) es)
    (hes' : Ascending (c.compareKeys key) es') (hperm : es.Perm es') : es = es' := by
  refine List.Perm.eq_of_pairwise (fun a b _ _ hab hba => ?_) hes hes' hperm
  rw [← h.swap, hba] at hab
  cases hab

/-- Under one key there is one entry. -/
theorem entry_unique {es : List (Value × Value)} (hes : Ascending (c.compareKeys key) es)
    {e e' : Value × Value} (he : e ∈ es) (he' : e' ∈ es) (hkey : c.compareKeys key e.1 e'.1 = .eq) :
    e' = e := by
  by_contra hne
  have hpair : es.Pairwise fun e e' => c.compareKeys key e.1 e'.1 ≠ .eq :=
    hes.imp fun hgt => cmp_ne_eq_of_gt h.swap hgt
  have : Std.Symm fun e e' : Value × Value => c.compareKeys key e.1 e'.1 ≠ .eq :=
    ⟨fun _ _ hab => h.ne_eq_symm hab⟩
  exact hpair.forall he he' (Ne.symm hne) hkey

end Catalog.OrdersKeys

/-! ## 2. Maps that are read -/

/-- The same bytes hold the same entries. -/
theorem Row.entries_unique {r : Reading} {es es' : List (Bytes × Value × Value)} {inner : Bytes}
    (h : Row (EntryAt r key value) es inner) (h' : Row (EntryAt r key value) es' inner) :
    es = es' := by
  induction h generalizing es' with
  | nil =>
    cases es' with
    | nil => rfl
    | cons e es' =>
      have hcount := InRow.nil.count_eq h'.entries_inRow
      simp at hcount
  | cons hx hs ih =>
    rename_i e es x bytes
    generalize hbytes : x ++ bytes = whole at h'
    cases h' with
    | nil =>
      obtain ⟨hnil, -⟩ := List.append_eq_nil_iff.mp hbytes
      exact absurd hnil hx.inRow.startsItem.ne_nil
    | cons hx' hs' =>
      obtain ⟨rfl, rfl⟩ := hx.inRow.cancel hx'.inRow hbytes
      obtain ⟨u, he, hk, hv⟩ := hx
      obtain ⟨u', he', hk', hv'⟩ := hx'
      obtain ⟨hspan, rfl⟩ := hk.item.cancel hk'.item (he.symm.trans he')
      rw [← hspan] at hk'
      rw [ih hs', Prod.ext hspan (Prod.ext (hk.reads.unique hk'.reads) (hv.reads.unique hv'.reads))]

/-- Entries that were read, as they stand on the wire. -/
theorem Row.of_wire {r : Reading} {ps : List ((Value × Value) × (Bytes × Bytes))}
    (h : ∀ p ∈ ps, r.PartAt key p.1.1 p.2.1 ∧ r.PartAt value p.1.2 p.2.2) :
    Row (EntryAt r key value) (ps.map fun p => (p.2.1, p.1)) (wireBytes (ps.map Prod.snd)) := by
  induction ps with
  | nil => exact .nil
  | cons p ps ih =>
    obtain ⟨⟨hk, hv⟩, hrest⟩ := List.forall_mem_cons.mp h
    exact .cons ⟨p.2.2, rfl, hk, hv⟩ (ih hrest)

/-- A map on the wire, within the limits: behind a head that opens it, entries whose keys and values
    decode alone, one level below. With the bytes of each entry goes what they decode to. -/
structure Catalog.PairsOnWire (c : Catalog) (o : DecodeOptions) (depth : Nat) (key value : TypeExpr)
    (ps : List ((Value × Value) × (Bytes × Bytes))) (u : Bytes) : Prop where
  bytes : ∃ (h : Head) (front body : Bytes), u = front ++ body ∧ h.Spelled front ∧ h.major = .map ∧
    (∀ n, h.arg = some n → n.toNat ≤ o.maxCollectionLength.toNat) ∧
    h.pending.Body ps.length (wireBytes (ps.map Prod.snd)) body
  decodes : ∀ p ∈ ps, c.codec.trial o depth key p.2.1 = .ok p.1.1 ∧
    c.codec.trial o depth value p.2.2 = .ok p.1.2

/-- The map that entries are put in order to. -/
def orderedMap (key value : TypeExpr) (es : List (Value × Value)) : Value :=
  .node (.map key value) (.entries es) {}

/-- An ordered map is built of entries that can be put in order. -/
theorem construct_map_eq_ok {s : Shape} {p : Parts} {v : Value} {es : List (Value × Value)}
    (hp : p.content = .entries es) (htypes : ∀ e ∈ es, e.1.type = key ∧ e.2.type = value) :
    c.construct (.map key value) s p = .ok v ↔
      ∃ ordered, orderEntries (c.compareKeys key) 0 [] es = .ok ordered ∧
        v = orderedMap key value ordered := by
  rw [Catalog.construct, Catalog.constructMap, entries_eq_ok.mpr ⟨hp, htypes⟩, Except.ok_bind]
  constructor
  · intro h
    split at h
    · rename_i ordered ho
      cases h
      exact ⟨ordered, ho, rfl⟩
    · cases h
  · rintro ⟨ordered, ho, rfl⟩
    rw [ho]
    rfl

namespace Catalog.PairsOnWire

variable {o : DecodeOptions} {depth : Nat} {ps : List ((Value × Value) × (Bytes × Bytes))}
  {u : Bytes}

theorem partAt (h : c.PairsOnWire o depth key value ps u) : ∀ p ∈ ps,
    (c.codec.reading o depth).PartAt key p.1.1 p.2.1 ∧
      (c.codec.reading o depth).PartAt value p.1.2 p.2.2 := fun p hp =>
  ⟨partAt_of_trial (h.decodes p hp).1, partAt_of_trial (h.decodes p hp).2⟩

/-- **What is read off such a map are its pairs, put in order**, where no two keys are the same
    bytes. -/
theorem reads_iff (h : c.PairsOnWire o depth key value ps u) {v : Value} :
    (c.codec.read o (depth + 1) (.map key value)).Reads u v ↔ (ps.map fun p => p.2.1).Nodup ∧
      ∃ ordered, orderEntries (c.compareKeys key) 0 [] (ps.map Prod.fst) = .ok ordered ∧
        v = orderedMap key value ordered := by
  obtain ⟨s, hs, hkind, hlayout, htag, hraw, hframing⟩ : ∃ s, c.resolve (.map key value) = .ok s ∧
      s.kind = .map ∧ s.layout = some (.entries key value) ∧ s.tag = none ∧ s.preserveRaw = false ∧
      ∀ indefinite, s.requireFraming indefinite = .ok () :=
        ⟨_, rfl, rfl, rfl, rfl, rfl, fun _ => rfl⟩
  have hparts := h.partAt
  have hrow := Row.of_wire hparts
  obtain ⟨head, front, body, rfl, hhead, hmajor, hmax, hbody⟩ := h.bytes
  have hopens : s.Opens (c.codec.reading o depth) .map head.pending front :=
    Shape.opens_iff.mpr ⟨head, hhead, hmajor, rfl, hframing _, hmax⟩
  have hspans : (ps.map fun p => (p.2.1, p.1)).map Prod.fst = ps.map fun p => p.2.1 := by
    rw [List.map_map]
    rfl
  have hpairs : (ps.map fun p => (p.2.1, p.1)).map (fun e : Bytes × Value × Value => e.2) =
      ps.map Prod.fst := by
    rw [List.map_map]
    rfl
  have htypes : ∀ e ∈ ps.map Prod.fst, e.1.type = key ∧ e.2.type = value :=
    List.forall_mem_map.mpr fun p hp => ⟨(hparts p hp).1.type, (hparts p hp).2.type⟩
  constructor
  · intro hread
    obtain ⟨parts, hkept, hv⟩ :=
      (Codec.readAt_of_reads (c.codec.sound o depth) hread).keptAt hs
    obtain ⟨tag, inner, parts', hu, hkindAt, hcontent, -, hfront⟩ := hkept.behind_tag
    obtain ⟨e, front', body', content, n, inner', rfl, hopens', hbody', hholds, rfl⟩ :=
      Shape.mapAt_iff.mp (hkindAt.mapAt hkind)
    obtain rfl : tag = [] := by
      rcases hfront with htagNil | ⟨g, hg, hgm⟩
      · exact htagNil
      · obtain ⟨rfl, -, -⟩ := hhead.cancel hg hu
        rw [hmajor] at hgm
        cases hgm
    obtain ⟨-, rfl, rfl, rfl⟩ := hopens.cancel hopens' hu
    cases hholds with
    | entries hl hes hkeys =>
      obtain ⟨rfl, rfl⟩ := Layout.entries.inj (Option.some.inj (hlayout.symm.trans hl))
      obtain rfl := hbody.inner_unique hbody'
      obtain rfl := hes.entries_unique hrow
      rw [hspans] at hkeys
      rw [hpairs] at hcontent
      exact ⟨hkeys, (construct_map_eq_ok hcontent htypes).mp hv⟩
    | fields hl _ _ => cases hlayout.symm.trans hl
  · rintro ⟨hnodup, hordered⟩
    rw [← hspans] at hnodup
    have hmap := Shape.MapAt.entries hlayout hopens (by rwa [List.length_map]) hrow hnodup
    have hitem := Shape.ItemAt.untagged htag (.map hkind hmap)
    refine Codec.read_reads (.mk hs (.dropped hraw hitem) ?_)
    exact (construct_map_eq_ok (congrArg Content.entries hpairs) htypes).mpr hordered

/-- Where no two of the decoded keys compare equal, no two keys are the same bytes. -/
theorem spans_nodup (h : c.PairsOnWire o depth key value ps u) (hord : c.OrdersKeys key)
    (hpair : (ps.map Prod.fst).Pairwise fun e e' => c.compareKeys key e.1 e'.1 ≠ .eq) :
    (ps.map fun p => p.2.1).Nodup := by
  refine List.pairwise_map.mpr
    ((List.pairwise_map.mp hpair).imp_of_mem fun {p p'} hp hp' hne hspan => ?_)
  have hkey := (h.partAt p hp).1.reads
  rw [hspan] at hkey
  rw [hkey.unique (h.partAt p' hp').1.reads, hord.self] at hne
  exact hne rfl

/-- **A map is read off just if its decoded keys are different**: then the keys differ on the wire
    as well. -/
theorem reads_ordered_iff (h : c.PairsOnWire o depth key value ps u) (hord : c.OrdersKeys key)
    {v : Value} : (c.codec.read o (depth + 1) (.map key value)).Reads u v ↔
      ∃ ordered, orderEntries (c.compareKeys key) 0 [] (ps.map Prod.fst) = .ok ordered ∧
        v = orderedMap key value ordered := by
  rw [h.reads_iff]
  refine and_iff_right_of_imp ?_
  rintro ⟨ordered, hordered, -⟩
  exact h.spans_nodup hord (hord.orderEntries_iff.mp ⟨ordered, hordered⟩)

/-- A map on the wire is one item. -/
theorem isItem (h : c.PairsOnWire o depth key value ps u) : IsItem u := by
  obtain ⟨head, front, body, rfl, hhead, hmajor, -, hbody⟩ := h.bytes
  have hrow := (Row.of_wire h.partAt).entries_inRow
  rw [List.length_map] at hrow
  have hwidth : head.major.perElement = some 2 := by
    rw [hmajor]
    rfl
  exact (ItemOf.of_body hhead hwidth hbody hrow).isItem

end Catalog.PairsOnWire

/-! ## 3. Maps that are written -/

/-- **An ordered map is written entry by entry**, as its entries stand. -/
theorem write_map_iff {o : EncodeOptions} {depth : Nat} {es : List (Value × Value)} {b : Bytes} :
    (c.codec.write o (depth + 1) (.map key value) (orderedMap key value es)).result = .ok b ↔
      ∃ inner, b = collectionBytes .map o.indefinite es.length inner ∧
        Row (EntryAs (c.codec.writing o depth) key value) es inner := by
  obtain ⟨s, hs, hkind, hlayout, htag, hlength⟩ : ∃ s, c.resolve (.map key value) = .ok s ∧
      s.kind = .map ∧ s.layout = some (.entries key value) ∧ s.tag = none ∧ s.length = .either :=
    ⟨_, rfl, rfl, rfl, rfl, rfl⟩
  have hpieces : c.codec.catalog.pieces (.map key value) (orderedMap key value es) =
      .ok { content := .entries es, alternative := none, style := none } := if_neg (not_not.mpr rfl)
  have hframing : (c.codec.writing o depth).indefinite s.length none = o.indefinite := by
    rw [hlength]
    rfl
  have htagBefore : s.tagBefore none = [] := by
    unfold Shape.tagBefore
    rw [htag]
  rw [Codec.write_of_pieces_eq_ok hs (fun _ => rfl) hpieces, htagBefore]
  constructor
  · rintro ⟨u, hk, rfl⟩
    cases hk.mapAs hkind with
    | entries hl hc hrow =>
      obtain ⟨rfl, rfl⟩ := Layout.entries.inj (Option.some.inj (hlayout.symm.trans hl))
      obtain rfl := Content.entries.inj hc
      exact ⟨_, by rw [hframing, List.nil_append], hrow⟩
    | fields hl => cases hlayout.symm.trans hl
  · rintro ⟨inner, rfl, hrow⟩
    have hmap := Shape.MapAs.entries
        (p := { content := .entries es, alternative := none, style := none })
      hlayout rfl hrow
    exact ⟨_, .map hkind hmap, by rw [hframing, List.nil_append]⟩

/-- An ordered map is written if its keys and values are. -/
theorem writes_map_iff {o : EncodeOptions} {depth : Nat} {es : List (Value × Value)} :
    (∃ b, (c.codec.write o (depth + 1) (.map key value) (orderedMap key value es)).result = .ok b) ↔
      ∀ e ∈ es, (∃ x, (c.codec.write o depth key e.1).result = .ok x) ∧
        ∃ x, (c.codec.write o depth value e.2).result = .ok x := by
  have hw := c.codec.writing_sound o depth
  constructor
  · rintro ⟨b, hb⟩ e he
    obtain ⟨inner, -, hrow⟩ := write_map_iff.mp hb
    obtain ⟨_, k, x, rfl, hk, hx⟩ := hrow.exists_of_mem he
    exact ⟨⟨k, hk.writes⟩, x, hx.writes⟩
  · intro h
    have hone : ∀ e ∈ es, ∃ x, EntryAs (c.codec.writing o depth) key value e x := by
      intro e he
      obtain ⟨⟨k, hk⟩, x, hx⟩ := h e he
      exact ⟨k ++ x, k, x, rfl, hw.partAs_iff.mp hk, hw.partAs_iff.mp hx⟩
    obtain ⟨inner, hrow⟩ := Row.exists_of_forall hone
    exact ⟨_, write_map_iff.mpr ⟨inner, rfl, hrow⟩⟩

/-! ## 4. Maps that are read and written again -/

/-- The value that is read off a map whose keys and values decode, with its entries: what the pairs
    on the wire come to. -/
structure Catalog.MapOfPairs (c : Catalog) (o : DecodeOptions) (depth : Nat) (key value : TypeExpr)
    (ps : List ((Value × Value) × (Bytes × Bytes))) (v : Value)
    (es : List (Value × Value)) : Prop where
  map : v = orderedMap key value es
  /-- Each decoded key with the value that followed it, and nothing else. -/
  entries : es.Perm (ps.map Prod.fst)
  ascending : Ascending (c.compareKeys key) es
  /-- Under a decoded key stands the value that followed it. -/
  under : ∀ p ∈ ps, ∀ e ∈ es, c.compareKeys key p.1.1 e.1 = .eq → e = p.1
  /-- The same pairs in any order, under any head and however they are spelled, are read as this
      value. -/
  rearranged : ∀ qs u, c.PairsOnWire o depth key value qs u →
    (qs.map Prod.fst).Perm (ps.map Prod.fst) →
    (c.codec.read o (depth + 1) (.map key value)).Reads u v
  /-- What is written are these entries in this order, as many as there were. -/
  written : ∀ (o' : EncodeOptions) depth' b,
    (c.codec.write o' (depth' + 1) (.map key value) v).result = .ok b → ∃ inner,
      b = collectionBytes .map o'.indefinite ps.length inner ∧
        Row (EntryAs (c.codec.writing o' depth') key value) es inner
  /-- It is written if each key and each value is. -/
  writes : ∀ (o' : EncodeOptions) depth',
    (∃ b, (c.codec.write o' (depth' + 1) (.map key value) v).result = .ok b) ↔
      ∀ p ∈ ps, (∃ x, (c.codec.write o' depth' key p.1.1).result = .ok x) ∧
        ∃ x, (c.codec.write o' depth' value p.1.2).result = .ok x
  /-- With the nesting it was read with, nothing but an integer that does not fit its type is
      refused. -/
  fits : (∀ t, c.Reaches (.map key value) t → c.BuiltIn t) → ∀ (o' : EncodeOptions) depth',
    depth ≤ depth' → ((∃ b, (c.codec.write o' (depth' + 1) (.map key value) v).result = .ok b) ↔
      c.WidthsFit v)

/-- **An ordered map loses no entry and invents none.** Let an item be a map within the limits, and
    let each of its keys and values decode. It is read as an ordered map if and only if no two of
    the decoded keys compare equal, however they are spelled; what is read are the decoded pairs in
    ascending order of their keys, whatever their order on the wire, and as such they are written
    again. -/
theorem Catalog.ordered_map_is_its_entries (c : Catalog) (o : DecodeOptions) (depth : Nat)
    {key value : TypeExpr} (hord : c.OrdersKeys key) {ps : List ((Value × Value) × (Bytes × Bytes))}
    {u : Bytes} (hu : c.PairsOnWire o depth key value ps u) (rest : Bytes) :
    ((∃ p, (c.codec.read o (depth + 1) (.map key value) (u ++ rest)).result = .ok p) ↔
      ps.Pairwise fun p p' => c.compareKeys key p.1.1 p'.1.1 ≠ .eq) ∧
    ∀ v rest', (c.codec.read o (depth + 1) (.map key value) (u ++ rest)).result = .ok (v, rest') →
      rest' = rest ∧ ∃ es, c.MapOfPairs o depth key value ps v es := by
  refine ⟨?_, fun v rest' hread => ?_⟩
  · rw [← List.pairwise_map (f := Prod.fst)
      (R := fun e e' : Value × Value => c.compareKeys key e.1 e'.1 ≠ .eq), ← hord.orderEntries_iff]
    constructor
    · rintro ⟨⟨v, rest'⟩, hread⟩
      obtain ⟨ordered, hordered, -⟩ :=
        (hu.reads_ordered_iff hord).mp (Codec.reads_of_item hu.isItem hread).2
      exact ⟨ordered, hordered⟩
    · rintro ⟨ordered, hordered⟩
      exact ⟨_, (hu.reads_ordered_iff hord).mpr ⟨ordered, hordered, rfl⟩ rest⟩
  · obtain ⟨rfl, hreads⟩ := Codec.reads_of_item hu.isItem hread
    obtain ⟨es, hordered, rfl⟩ := (hu.reads_ordered_iff hord).mp hreads
    have hperm : es.Perm (ps.map Prod.fst) := by
      simpa using orderEntries_perm hordered
    have hascending := hord.ascending .nil hordered
    have hlength : es.length = ps.length := by
      rw [hperm.length_eq, List.length_map]
    refine ⟨rfl, es, rfl, hperm, hascending, fun p hp e he hkey => ?_, fun qs u' hu' hqs => ?_,
      fun o' depth' b hb => ?_, fun o' depth' => ?_, fun hbuilt o' depth' hdepth => ?_⟩
    · exact hord.entry_unique hascending (hperm.mem_iff.mpr (List.mem_map_of_mem hp)) he hkey
    · have hpair := hord.orderEntries_iff.mp ⟨es, hordered⟩
      obtain ⟨es', hordered'⟩ := hord.orderEntries_iff.mpr
        (hqs.symm.pairwise hpair fun hab => hord.ne_eq_symm hab)
      have hperm' : es'.Perm (qs.map Prod.fst) := by
        simpa using orderEntries_perm hordered'
      obtain rfl := hord.eq_of_perm (hord.ascending .nil hordered') hascending
        (hperm'.trans (hqs.trans hperm.symm))
      exact (hu'.reads_ordered_iff hord).mpr ⟨es', hordered', rfl⟩
    · rw [← hlength]
      exact write_map_iff.mp hb
    · rw [writes_map_iff]
      constructor
      · exact fun h p hp => h p.1 (hperm.mem_iff.mpr (List.mem_map_of_mem hp))
      · intro h e he
        obtain ⟨p, hp, rfl⟩ := List.mem_map.mp (hperm.mem_iff.mp he)
        exact h p hp
    · have hready : c.Ready (depth + 1) (orderedMap key value es) :=
        ready_of_read hbuilt .refl hreads
      exact (write_decides (hready.mono (Nat.succ_le_succ hdepth))).ok_iff

/-- A map without an announced length, its entries in descending order and its keys under wider
    heads than they need: it holds two entries, and is written in ascending order. -/
theorem Catalog.descending_map_is_its_entries :
    let c : Catalog := {
      declared := fun _ => { schema := Schema.scalar .uint }
      printName := fun _ => "type" }
    let number (n : UInt64) : Value := .ofScalar .uint64 (.uint n)
    let ps : List ((Value × Value) × (Bytes × Bytes)) :=
      [((number 2, number 5), ([0x18, 0x02], [0x05])),
        ((number 1, number 6), ([0x18, 0x01], [0x06]))]
    let u : Bytes := [0xbf, 0x18, 0x02, 0x05, 0x18, 0x01, 0x06, 0xff]
    let v : Value := orderedMap .uint64 .uint64 [(number 1, number 6), (number 2, number 5)]
    c.OrdersKeys .uint64 ∧ c.PairsOnWire {} 255 .uint64 .uint64 ps u ∧
      (c.codec.read {} 256 (.map .uint64 .uint64) (u ++ [])).result = .ok (v, []) ∧
      (ps.Pairwise fun p p' => c.compareKeys .uint64 p.1.1 p'.1.1 ≠ .eq) ∧
      ∃ es, c.MapOfPairs {} 255 .uint64 .uint64 ps v es := by
  intro c number ps u v
  have hbare : c.OrdersBare .uint64 := Catalog.ordersBare_of_scalars rfl
  have hord : c.OrdersKeys .uint64 := ⟨hbare.swap, hbare.trans⟩
  have hu : c.PairsOnWire {} 255 .uint64 .uint64 ps u := by
    refine ⟨⟨⟨.map, 31, none⟩, [0xbf], _, rfl, indefiniteHead_spelled (m := .map) rfl, rfl,
      by simp, .toBreak⟩, ?_⟩
    rintro p hp
    rcases List.mem_cons.mp hp with rfl | hp
    · constructor <;> cbv
    · obtain rfl := List.mem_singleton.mp hp
      constructor <;> cbv
  have hread : (c.codec.read {} 256 (.map .uint64 .uint64) (u ++ [])).result = .ok (v, []) := by cbv
  obtain ⟨hapart, hmap⟩ := c.ordered_map_is_its_entries {} 255 hord hu []
  exact ⟨hord, hu, hread, hapart.mp ⟨_, hread⟩, (hmap v [] hread).2⟩

/-- What is read is not always written again: a key under a wider head than its type has decodes,
    but is refused by the encoder, and a writer may lack the nesting for the entries of a map. -/
theorem Catalog.a_wide_key_is_not_written :
    let c : Catalog := {
      declared := fun _ => { schema := (Schema.scalar .uint).withHeadWidth .one }
      printName := fun _ => "coin" }
    let coins : TypeExpr := .map (.named "coin") (.named "coin")
    let coin (n : UInt64) : Value := .node (.named "coin") (.scalar (.uint n)) {}
    let ps : List ((Value × Value) × (Bytes × Bytes)) :=
      [((coin 256, coin 1), ([0x19, 0x01, 0x00], [0x01]))]
    let u : Bytes := [0xa1, 0x19, 0x01, 0x00, 0x01]
    let named : Value :=
      orderedMap .uint64 .text [(.ofScalar .uint64 (.uint 1), .ofScalar .text (.text "a"))]
    (∀ t, c.Reaches coins t → ∃ s, c.resolve t = .ok s) ∧ c.OrdersKeys (.named "coin") ∧
      c.PairsOnWire {} 255 (.named "coin") (.named "coin") ps u ∧
      (c.codec.decode coins u).result =
        .ok (orderedMap (.named "coin") (.named "coin") [(coin 256, coin 1)]) ∧
      (c.codec.encode (orderedMap (.named "coin") (.named "coin") [(coin 256, coin 1)])).result =
        .error (.integerWidth "coin" 256) ∧
      (c.codec.decode (.map .uint64 .text) [0xa1, 0x01, 0x61, 0x61]).result = .ok named ∧
      (c.codec.encode named { maxDepth := 1 }).result = .error (.tooDeep 1) := by
  intro c coins coin ps u named
  have hclosed : ∀ t ∈ [coins, .named "coin"], ∃ s, c.resolve t = .ok s ∧
      ∀ t' ∈ s.partTypes, t' ∈ [coins, .named "coin"] := by
    rw [List.forall_mem_cons, List.forall_mem_singleton]
    exact ⟨⟨_, rfl, by decide⟩, _, rfl, by decide⟩
  have hbare : c.OrdersBare (.named "coin") := Catalog.ordersBare_of_scalars rfl
  have hu : c.PairsOnWire {} 255 (.named "coin") (.named "coin") ps u := by
    obtain ⟨info, hh⟩ := headBytes_spelled .map 1 .minimal
    refine ⟨⟨_, _, _, rfl, hh, rfl, ?_, .counted⟩, List.forall_mem_singleton.mpr ?_⟩
    · intro n hn
      cases hn
      decide
    · constructor <;> cbv
  exact ⟨Catalog.Reaches.resolves_of_closed _ List.mem_cons_self hclosed,
    ⟨hbare.swap, hbare.trans⟩, hu,
    by cbv, by cbv, by cbv, by cbv⟩

end CborSchema
