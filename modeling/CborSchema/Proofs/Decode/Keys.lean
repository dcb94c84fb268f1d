import CborSchema.Proofs.Decode.Bare
import CborSchema.Proofs.Decode.Unique

/-!
# Keys that are repeated

Three places look out for a key that comes twice: entries of one key type are compared by the bytes
of their keys, an ordered map compares the keys that were decoded, and a map with fields marks the
fields it has met. What each of them rules out is said of the entries as they stand on the wire.

* `wireBytes`, `Row.wire` -- entries one after the other, each key and each value as an item;
* `Shape.KeysApart`, `keyedSteps_apart` -- of two entries of a map with fields that have one key, no
  field has it, and the shape is extensible;
* `Catalog.OrdersKeys.apart` -- an ordered map has no two keys that compare equal;
* `Catalog.MapOnWire`, `Catalog.repeated_keys_are_rejected` -- **the entries of a map that is
  accepted, and which of them may have one key.**
-/

namespace CborSchema

open Decoder

variable {s : Shape} {r : Reading}

/-! ## 1. Entries on the wire -/

/-- Entries one after the other: the bytes of each key, then those of the value under it. -/
def wireBytes (es : List (Bytes × Bytes)) : Bytes := es.flatMap fun e => e.1 ++ e.2

/-- Entries that were read stand on the wire one after the other, each key and each value as an
    item. -/
theorem Row.wire {key value : TypeExpr} {es : List (Bytes × Value × Value)} {inner : Bytes}
    (h : Row (EntryAt r key value) es inner) : ∃ ps : List ((Value × Value) × (Bytes × Bytes)),
      es = ps.map (fun p => (p.2.1, p.1)) ∧ inner = wireBytes (ps.map Prod.snd) ∧
        ∀ p ∈ ps, r.PartAt key p.1.1 p.2.1 ∧ r.PartAt value p.1.2 p.2.2 := by
  induction h with
  | nil => exact ⟨[], rfl, rfl, by simp⟩
  | cons hx _ ih =>
    rename_i e _ _ _ _
    obtain ⟨u, rfl, hk, hv⟩ := hx
    obtain ⟨ps, rfl, rfl, hps⟩ := ih
    exact ⟨(e.2, e.1, u) :: ps, rfl, rfl, List.forall_mem_cons.mpr ⟨⟨hk, hv⟩, hps⟩⟩

/-! ## 2. Maps with fields -/

section keyed

variable {fields : List Field}

/-- An entry of a map with fields: its key is that of a field that was not met before, or of
    none. -/
theorem KeyedStep.entry {found found' : Found} {x : Bytes}
    (h : KeyedStep s r fields found x found') :
    ∃ (w : Bytes × Bytes) (key : KeyItem), x = w.1 ++ w.2 ∧ IsItem w.2 ∧ KeyAt r key w.1 ∧
      ((s.extensible = true ∧ (∀ f ∈ fields, key ≠ .field f.key) ∧ found' = found) ∨
        ∃ f ∈ fields, key = .field f.key ∧ f.key ∉ found.map Prod.fst ∧
          found'.map Prod.fst = f.key :: found.map Prod.fst) := by
  have hfield {key : KeyItem} {f : Field}
      (hf : (fields.find? fun f => key == .field f.key) = some f) :
      key = .field f.key := by simpa using List.find?_some hf
  cases h with
  | unknown hk hf he hv =>
    refine ⟨(_, _), _, rfl, hv.isItem, hk, .inl ⟨he, fun f hmem hkey => ?_, rfl⟩⟩
    exact List.find?_eq_none.mp hf f hmem (beq_iff_eq.mpr hkey)
  | literal hk hf hnew _ hv =>
    exact ⟨(_, _), _, rfl, hv.isItem, hk,
      .inr ⟨_, List.mem_of_find?_eq_some hf, hfield hf, hnew, rfl⟩⟩
  | value hk hf hnew _ hv =>
    exact ⟨(_, _), _, rfl, hv.item, hk,
      .inr ⟨_, List.mem_of_find?_eq_some hf, hfield hf, hnew, rfl⟩⟩

/-- Two entries of a map with fields have one key, however it is spelled, only if no field has it
    and the shape passes over such entries. -/
def Shape.KeysApart (s : Shape) (r : Reading) (fields : List Field) (e e' : Bytes × Bytes) : Prop :=
  ∀ key, KeyAt r key e.1 → KeyAt r key e'.1 →
    s.extensible = true ∧ ∀ f ∈ fields, key ≠ .field f.key

/-- **A field that was met is not met again**: what is found before an entry keeps the entries
    behind it from the keys of the fields in front. -/
theorem keyedSteps_apart {k : Nat} {found found' : Found} {inner : Bytes}
    (h : Steps (KeyedStep s r fields) k found inner found') :
    ∃ ws, ws.length = k ∧ inner = wireBytes ws ∧
      (∀ w ∈ ws, IsItem w.2 ∧ ∃ key, KeyAt r key w.1) ∧
      (∀ w ∈ ws, ∀ f ∈ fields, f.key ∈ found.map Prod.fst → ¬ KeyAt r (.field f.key) w.1) ∧
      ws.Pairwise (s.KeysApart r fields) := by
  induction h with
  | nil => exact ⟨[], rfl, rfl, by simp, by simp, .nil⟩
  | cons hx _ ih =>
    obtain ⟨w, key, rfl, hv, hk, hkey⟩ := hx.entry
    obtain ⟨ws, rfl, rfl, hws, hmet, hpair⟩ := ih
    -- `hmet` speaks of the fields met before the entries behind, and the one in front is among
    -- these
    refine ⟨w :: ws, rfl, rfl, List.forall_mem_cons.mpr ⟨⟨hv, key, hk⟩, hws⟩,
      List.forall_mem_cons.mpr ⟨fun f hf hin hat => ?_, fun w' hw' f hf hin => ?_⟩,
      List.pairwise_cons.mpr ⟨fun w' hw' key' hat hat' => ?_, hpair⟩⟩
    · obtain rfl := hk.unique hat
      rcases hkey with ⟨_, hno, _⟩ | ⟨g, _, hg, hnew, _⟩
      · exact hno f hf rfl
      · exact hnew (KeyItem.field.inj hg ▸ hin)
    · refine hmet w' hw' f hf ?_
      rcases hkey with ⟨_, _, rfl⟩ | ⟨g, _, _, _, hfound⟩
      · exact hin
      · rw [hfound]
        exact List.mem_cons_of_mem _ hin
    · obtain rfl := hk.unique hat
      rcases hkey with ⟨he, hno, _⟩ | ⟨g, hg, rfl, _, hfound⟩
      · exact ⟨he, hno⟩
      · refine absurd hat' (hmet w' hw' g hg ?_)
        rw [hfound]
        exact List.mem_cons_self

end keyed

/-! ## 3. Ordered maps -/

/-- An order of keys by which a map can be kept in order. -/
structure Catalog.OrdersKeys (c : Catalog) (key : TypeExpr) : Prop where
  swap : ∀ a b, (c.compareKeys key a b).swap = c.compareKeys key b a
  trans : ∀ a b d, c.compareKeys key a b = .gt → c.compareKeys key b d = .gt →
    c.compareKeys key a d = .gt

/-- **An ordered map that is built has no two keys that compare equal.** -/
theorem Catalog.OrdersKeys.apart {c : Catalog} {key value : TypeExpr} (h : c.OrdersKeys key)
    {p : Parts} {v : Value} (hv : c.construct (.map key value) s p = .ok v)
    {es : List (Value × Value)} (hes : p.content = .entries es) :
    es.Pairwise fun e e' => c.compareKeys key e.1 e'.1 ≠ .eq := by
  obtain ⟨es', hentries, hv⟩ := Except.bind_eq_ok hv
  have hsame := (entries_eq_ok.mp hentries).1
  rw [hes, Content.entries.injEq] at hsame
  subst hsame
  split at hv
  · rename_i ordered horder
    obtain ⟨_, hpair⟩ := orderEntries_distinct h.swap h.trans .nil horder
    refine hpair.imp fun {e e'} hne heq => hne ?_
    rw [← h.swap, heq]
    rfl
  · cases hv

/-- Whatever the keys of an ordered map are spelled like, no two that are read compare equal. -/
theorem Catalog.OrdersKeys.reads_apart {c : Catalog} {key value item : TypeExpr}
    (h : c.OrdersKeys key) {p : Parts} {v : Value} (hv : c.construct (.map key value) s p = .ok v)
    {ps : List ((Value × Value) × (Bytes × Bytes))} (hp : p.content = .entries (ps.map Prod.fst))
    (hps : ∀ p ∈ ps, r.PartAt key p.1.1 p.2.1 ∧ r.PartAt item p.1.2 p.2.2) :
    (ps.map Prod.snd).Pairwise fun e e' => ∀ k k', (r.part key).Reads e.1 k →
      (r.part key).Reads e'.1 k' → c.compareKeys key k k' ≠ .eq := by
  have hpair := List.pairwise_map.mp (h.apart hv hp)
  refine List.pairwise_map.mpr (hpair.imp_of_mem fun {p p'} hp hp' hne k k' hread hread' => ?_)
  rw [hread.unique (hps p hp).1.reads, hread'.unique (hps p' hp').1.reads]
  exact hne

/-! ## 4. Maps that are accepted -/

/-- A map of a type on the wire, with its entries: the bytes of each key and of the value under
    it. -/
structure Catalog.MapOnWire (c : Catalog) (o : DecodeOptions) (depth : Nat) (t : TypeExpr)
    (s : Shape) (es : List (Bytes × Bytes)) (u : Bytes) : Prop where
  /-- The entries are all that stands between the head, behind a tag if there is one, and the
      end. -/
  bytes : ∃ tag front body e, u = tag ++ (front ++ body) ∧
    (tag = [] ∨ ∃ h : Head, h.Spelled tag ∧ h.major = .tag) ∧
    s.Opens (c.codec.reading o depth) .map e front ∧ e.Body es.length (wireBytes es) body
  items : ∀ e ∈ es, IsItem e.1 ∧ IsItem e.2
  /-- Entries of one key type: each key is read as that type, and no two are the same bytes. -/
  entries : ∀ key value, s.layout = some (.entries key value) →
    (∀ e ∈ es, ∃ k, (c.codec.read o depth key).Reads e.1 k) ∧ es.Pairwise fun e e' => e.1 ≠ e'.1
  /-- Of an ordered map no two keys compare equal, however they are spelled. -/
  ordered : ∀ key value, t = .map key value → c.OrdersKeys key →
    s.layout = some (.entries key value) ∧
      es.Pairwise fun e e' => ∀ k k', (c.codec.read o depth key).Reads e.1 k →
        (c.codec.read o depth key).Reads e'.1 k' → c.compareKeys key k k' ≠ .eq
  /-- Of the fields of a map none is met twice. -/
  fields : ∀ fields, s.layout = some (.fields fields) →
    (∀ e ∈ es, ∃ key, KeyAt (c.codec.reading o depth) key e.1) ∧
      es.Pairwise (s.KeysApart (c.codec.reading o depth) fields)

/-- **A map that is accepted, and which of its entries may have one key.** -/
theorem Catalog.repeated_keys_are_rejected (c : Catalog) (o : DecodeOptions) (depth : Nat)
    {t : TypeExpr} {s : Shape} (hs : c.resolve t = .ok s) (hk : s.kind = .map) {bytes rest : Bytes}
    {v : Value} (h : (c.codec.read o (depth + 1) t bytes).result = .ok (v, rest)) :
    ∃ used, bytes = used ++ rest ∧ ∃ es, c.MapOnWire o depth t s es used := by
  obtain ⟨used, hused, hreads, hat⟩ := Codec.read_yields (c.codec.sound o depth) t bytes v rest h
  refine ⟨used, hused, ?_⟩
  obtain ⟨hs', hkept, hv⟩ := hat
  rename_i parts
  cases Except.ok.inj (hs.symm.trans hs')
  obtain ⟨tag, inner, parts', rfl, hkind, hcontent, -, htag⟩ := hkept.behind_tag
  cases hkind.mapAt hk with
  | entries hl ho hb hes hkeys =>
    rename_i key value e es front inner u
    obtain ⟨ps, rfl, rfl, hps⟩ := hes.wire
    have hspans : ps.Pairwise fun p p' => p.2.1 ≠ p'.2.1 := by
      rw [List.map_map, List.Nodup, List.pairwise_map] at hkeys
      exact hkeys
    refine ⟨ps.map Prod.snd, ⟨tag, front, u, e, rfl, htag, ho, by rwa [List.length_map] at hb ⊢⟩,
      List.forall_mem_map.mpr fun p hp => ?_, fun key' value' hl' => ?_,
        fun key' value' ht hord => ?_,
      fun fields hl' => ?_⟩
    · exact ⟨(hps p hp).1.item, (hps p hp).2.item⟩
    · cases hl.symm.trans hl'
      exact ⟨List.forall_mem_map.mpr fun p hp => ⟨p.1.1, (hps p hp).1.reads⟩,
        List.pairwise_map.mpr hspans⟩
    · subst ht
      cases hs
      cases hl
      have hentries : parts.content = .entries (ps.map Prod.fst) := by
        rw [hcontent, List.map_map]
        rfl
      exact ⟨rfl, hord.reads_apart hv hentries hps⟩
    · cases hl.symm.trans hl'
  | fields hl ho hb hsteps hc =>
    obtain ⟨ws, rfl, rfl, hws, _, hpair⟩ := keyedSteps_apart hsteps
    refine ⟨ws, ⟨tag, _, _, _, rfl, htag, ho, hb⟩, fun w hw => ?_, fun key value hl' => ?_,
      fun key value ht _ => ?_, fun fields' hl' => ?_⟩
    · obtain ⟨hv, key, hkey⟩ := hws w hw
      exact ⟨hkey.isItem, hv⟩
    · cases hl.symm.trans hl'
    · subst ht
      cases hs
      cases hl
    · cases hl.symm.trans hl'
      exact ⟨fun w hw => (hws w hw).2, hpair⟩

/-- An open map without an announced length: a field, and twice a key that no field has. -/
theorem Catalog.open_map_repeats_an_unknown_key :
    let c : Catalog := {
      declared := fun _ => { schema :=
        (Schema.map.withValue (.int 0) .uint64 .optional).allowingExtras }
      printName := fun _ => "open" }
    let bytes : Bytes := [0xbf, 0x09, 0x01, 0x00, 0x05, 0x18, 0x09, 0x02, 0xff]
    let v : Value := .node (.named "open") (.fields [some (.ofScalar .uint64 (.uint 5))])
      { observed := { indefinite := true } }
    ∃ s, c.resolve (.named "open") = .ok s ∧ s.kind = .map ∧
      (c.codec.read {} 3 (.named "open") bytes).result = .ok (v, []) ∧
      ∃ used, bytes = used ++ [] ∧ ∃ es, c.MapOnWire {} 2 (.named "open") s es used := by
  intro c bytes v
  have hread : (c.codec.read {} 3 (.named "open") bytes).result = .ok (v, []) := by cbv
  exact ⟨_, rfl, rfl, hread, c.repeated_keys_are_rejected {} 2 rfl rfl hread⟩

/-- Entries under two spellings of one key are accepted by a type that does not compare keys, and so
    are two entries under a key that no field of an open map has. -/
theorem Catalog.repeated_keys_are_accepted :
    let c : Catalog := {
      declared := fun name => { schema :=
        if name = "pairs" then Schema.map.withEntries .uint64 .uint64
        else (Schema.map.withValue (.int 0) .uint64 .optional).allowingExtras }
      printName := fun _ => "map" }
    let number (n : UInt64) : Value := .ofScalar .uint64 (.uint n)
    (c.codec.decode .uint64 [0x01]).result = .ok (number 1) ∧
      (c.codec.decode .uint64 [0x18, 0x01]).result = .ok (number 1) ∧
      (c.codec.decode (.named "pairs") [0xa2, 0x01, 0x01, 0x18, 0x01, 0x02]).result =
        .ok (.node (.named "pairs") (.entries [(number 1, number 1), (number 1, number 2)]) {}) ∧
      (c.codec.decode (.named "open") [0xa2, 0x09, 0x01, 0x09, 0x01]).result =
        .ok (.node (.named "open") (.fields [none]) {}) := by
  intro c number
  refine ⟨?_, ?_, ?_, ?_⟩
  all_goals cbv

end CborSchema
