import CborSchema.Proofs.Decode.Respelled
import CborSchema.Proofs.Roundtrip.Values

/-!
# Decoding whatever the wire form

* `Catalog.Liberal` -- types that take either framing, with ordered dynamic maps;
* `read_respelled` -- what is read of one spelling of a tree is read of any other, by induction on
  the nesting that is left;
* `Catalog.decode_depends_on_tree` -- **two spellings of one tree decode to one value**, up to the
  bytes kept in it and the framing noted in it.
-/

namespace CborSchema

open Decoder

variable {c : Catalog} {o : DecodeOptions} {t : TypeExpr}

/-- All types below a type resolve and take either framing; those with entries are ordered maps,
    whose order of keys looks at neither the bytes kept in a key nor its framing. -/
structure Catalog.Liberal (c : Catalog) (t : TypeExpr) : Prop where
  resolves : ∀ u, c.Reaches t u → ∃ s, c.resolve u = .ok s ∧ s.length = .either
  ordered : ∀ u s key value, c.Reaches t u → c.resolve u = .ok s →
    s.layout = some (.entries key value) → u = .map key value
  keys : ∀ key value, c.Reaches t (.map key value) → c.OrdersBare key

theorem Catalog.Liberal.of_closed (ts : List TypeExpr) (ht : t ∈ ts)
    (hts : ∀ u ∈ ts, ∃ s, c.resolve u = .ok s ∧ s.length = .either ∧ (∀ u' ∈ s.partTypes, u' ∈ ts) ∧
      ∀ key value, s.layout = some (.entries key value) → u = .map key value)
    (hkeys : ∀ key value, .map key value ∈ ts → c.OrdersBare key) : c.Liberal t := by
  have hreached : ∀ u, c.Reaches t u → u ∈ ts := fun u hu => hu.mem_of_closed ht fun u hu => by
    obtain ⟨s, hs, _, hparts, _⟩ := hts u hu
    exact ⟨s, hs, hparts⟩
  refine ⟨fun u hu => ?_, fun u s key value hu hs => ?_,
    fun key value hu => hkeys key value (hreached _ hu)⟩
  · obtain ⟨s, hs, hlength, _⟩ := hts u (hreached u hu)
    exact ⟨s, hs, hlength⟩
  · obtain ⟨s', hs', _, _, hentries⟩ := hts u (hreached u hu)
    obtain rfl := Except.ok.inj (hs'.symm.trans hs)
    exact hentries key value

/-- A shape of a liberal type is read of either spelling, if its parts are. -/
theorem Catalog.Liberal.indifferent (hc : c.Liberal t) {u : TypeExpr} (hu : c.Reaches t u)
    {s : Shape} (hs : c.resolve u = .ok s) {depth : Nat}
    (hstable : ∀ u' ∈ s.partTypes, (c.codec.reading o depth).Stable u') :
    s.Indifferent (c.codec.reading o depth) := by
  have hresolves : ∀ u, c.Reaches t u → ∃ s, c.resolve u = .ok s := by
    intro u hu
    obtain ⟨s, hs, _⟩ := hc.resolves u hu
    exact ⟨s, hs⟩
  obtain ⟨s', hs', hlength⟩ := hc.resolves u hu
  obtain rfl := Except.ok.inj (hs.symm.trans hs')
  exact ⟨hlength, c.codec.sound o depth, hstable, fun u' hu' x hx e he =>
    candidate_noConfig hresolves hu hs hu' hx he⟩

/-- **What is read of one spelling of a tree is read of any other**, up to the bytes kept and the
    framing. -/
theorem read_respelled (hc : c.Liberal t) {depth : Nat} {u : TypeExpr} (hu : c.Reaches t u)
    {x y : Bytes} (hr : Respelled o.maxCollectionLength x y) {v : Value}
    (h : (c.codec.read o depth u).Reads x v) :
    ∃ v', (c.codec.read o depth u).Reads y v' ∧ v'.bare = v.bare := by
  induction depth generalizing u x y v with
  | zero => exact absurd h Codec.not_reads_zero
  | succ depth ih =>
    cases Codec.readAt_of_reads (c.codec.sound o depth) h with
    | mk hs hk hv =>
      rename_i s parts
      have hs : c.resolve u = .ok s := hs
      have hstable : ∀ u' ∈ s.partTypes, (c.codec.reading o depth).Stable u' := by
        intro u' hu' z x y hz hr
        obtain ⟨z', hz', hbare⟩ := ih (.part hu hs hu') hr hz.reads
        exact ⟨z', ((c.codec.read_partAt o depth u').whole hz'.whole).2, hbare⟩
      have hapart : parts.content.KeysApart := by
        intro es hes
        obtain ⟨key, value, hl⟩ := hk.entries_layout hes
        obtain rfl := hc.ordered u s key value hu hs hl
        exact (hc.keys key value hu).distinct hv hes
      have horder : ∀ key value, u = .map key value → c.OrdersBare key := by
        rintro key value rfl
        exact hc.keys key value hu
      obtain ⟨parts', hk', hbare⟩ := hk.respelled (hc.indifferent hu hs hstable) hapart hr
      have hsame : (c.construct u s parts').map Value.bare = .ok v.bare := by
        have hv : c.construct u s parts = .ok v := hv
        rw [← construct_bare horder, hbare, construct_bare horder, hv]
        rfl
      cases hv' : c.construct u s parts' with
      | error e =>
        rw [hv'] at hsame
        cases hsame
      | ok v' =>
        rw [hv'] at hsame
        exact ⟨v', Codec.read_reads (.mk hs hk' hv'), Except.ok.inj hsame⟩

/-- **Decoding depends on the item and not on its wire form.** Let all types below a type resolve
    and take either framing, and let its dynamic maps be ordered. Two byte strings that spell one
    tree, with at most as many elements in an array or map as the options allow and with a counted
    pair behind the general tag of a constructor, are both refused or are decoded to the same value,
    up to the bytes kept in it and its framing. -/
theorem Catalog.decode_depends_on_tree (c : Catalog) (t : TypeExpr) (hc : c.Liberal t)
    (o : DecodeOptions) (tree : Tree) (b b' : Bytes) (hb : tree.Spelled o.maxCollectionLength b)
    (hb' : tree.Spelled o.maxCollectionLength b') :
    (c.codec.decode t b o).result.toOption.map Value.bare =
      (c.codec.decode t b' o).result.toOption.map Value.bare := by
  have hr : Respelled o.maxCollectionLength b b' := ⟨tree, hb, hb'⟩
  have hdecode : ∀ {x y : Bytes}, Respelled o.maxCollectionLength x y → ∀ v,
      (c.codec.decode t x o).result = .ok v →
        ∃ v', (c.codec.decode t y o).result = .ok v' ∧ v'.bare = v.bare := by
    intro x y hr v hv
    obtain ⟨v', hv', hbare⟩ := read_respelled hc .refl hr ((decode_item hr.left).mp hv)
    exact ⟨v', (decode_item hr.right).mpr hv', hbare⟩
  cases hx : (c.codec.decode t b o).result with
  | ok v =>
    obtain ⟨v', hv', hbare⟩ := hdecode hr v hx
    rw [hv']
    exact congrArg some hbare.symm
  | error e =>
    cases hy : (c.codec.decode t b' o).result with
    | ok v' =>
      obtain ⟨v, hv, _⟩ := hdecode hr.symm v' hy
      rw [hx] at hv
      cases hv
    | error e' => rfl

/-- A map from a number to a text, with short heads and counted, or with a wider head, a break and a
    text in chunks. -/
theorem Catalog.text_map_has_two_forms :
    let c : Catalog := { declared := fun _ => {}, printName := fun _ => "map" }
    let t : TypeExpr := .map .uint64 .text
    let v : Value := .node t (.entries [(.ofScalar .uint64 (.uint 7), .ofScalar .text (.text "a"))])
      {}
    let b : Bytes := [0xa1, 0x07, 0x61, 0x61]
    let b' : Bytes := [0xbf, 0x18, 0x07, 0x7f, 0x61, 0x61, 0xff, 0xff]
    (c.codec.decode t b).result = .ok v ∧
      (c.codec.decode t b').result.toOption.map Value.bare = some v.bare := by
  intro c t v b b'
  have hliberal : c.Liberal t := by
    refine .of_closed [t, .uint64, .text] List.mem_cons_self ?_ fun key value _ =>
      Catalog.ordersBare_of_scalars rfl
    simp only [List.forall_mem_cons]
    refine ⟨⟨_, rfl, rfl, by decide, fun key value hl => ?_⟩, ⟨_, rfl, rfl, by decide, ?_⟩,
      ⟨_, rfl, rfl, by decide, ?_⟩, by simp⟩
    · cases hl
      rfl
    · intro key value hl
      cases hl
    · intro key value hl
      cases hl
  let tree : Tree := .map [(.unsigned 7, .text [0x61])]
  have hb : tree.Spelled Limits.collectionLength b := by
    have hmap : Head.Spelled _ [0xa1] := .short (by decide)
    have hkey : Head.Spelled _ [0x07] := .short (by decide)
    have htext : Head.Spelled _ [0x61] := .short (by decide)
    refine .map (u := [0x07, 0x61, 0x61]) hmap rfl .counted (by decide) ?_
    refine .cons (x := [0x07]) (.unsigned hkey rfl rfl) (.cons (x := [0x61, 0x61]) ?_ .nil)
    exact .text (u := [0x61]) htext rfl (.definite rfl rfl (by decide))
  have hb' : tree.Spelled Limits.collectionLength b' := by
    have hmap : Head.Spelled _ [0xbf] := .opened (by decide) (by decide)
    have hkey : Head.Spelled _ [0x18, 0x07] := .long rfl rfl
    have htext : Head.Spelled _ [0x7f] := .opened (by decide) (by decide)
    have hchunk : Head.Spelled _ [0x61] := .short (by decide)
    refine .map (u := [0x18, 0x07, 0x7f, 0x61, 0x61, 0xff] ++ [0xff]) hmap rfl .toBreak
      (by decide) ?_
    refine .cons (x := [0x18, 0x07]) (.unsigned hkey rfl rfl)
      (.cons (x := [0x7f, 0x61, 0x61, 0xff]) ?_ .nil)
    have hchunks : Chunks .text ([0x61] ++ ([0x61] ++ [])) ([0x61] ++ []) :=
      .cons hchunk rfl rfl rfl .nil
    exact .text (u := [0x61, 0x61] ++ [0xff]) htext rfl (.indefinite rfl hchunks (by decide))
  have hread : (c.codec.decode t b).result = .ok v := by cbv
  have hsame := c.decode_depends_on_tree t hliberal {} tree b b' hb hb'
  rw [hread] at hsame
  exact ⟨hread, hsame.symm⟩

end CborSchema
