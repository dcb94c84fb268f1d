import CborSchema.Proofs.Raw.Spans
import CborSchema.Proofs.Roundtrip.Slots

/-!
# Places in what was read

Each part of a value that was read has its place in the bytes.

* `TakenAs.field`, `TakenAs.entry` -- the part of a number with its field and its slot, or with its
  entry on the wire;
* `Gathers.element`, `Gathers.entry` -- an element and an entry by their number;
* `ArrayAt.readPlace`, `MapAt.readPlace`, `BodyAt.readPlace` -- the place of a part by the kind of
  the shape;
* `place_of_read` -- the place of a part of a value, and `lies_of_read` -- of whatever is in it.
-/

namespace CborSchema

open Decoder

variable {c : Catalog} {s : Shape} {r : Reading}

/-! ## 1. Parts by number -/

/-- The part of a number among the first and the second of each pair. -/
theorem getElem?_pairs {α : Type} {es : List (α × α)} {i : Nat} {z : α}
    (h : (es.flatMap fun e => [e.1, e.2])[i]? = some z) :
    ∃ n e, es[n]? = some e ∧ (i = n * 2 ∧ z = e.1 ∨ i = n * 2 + 1 ∧ z = e.2) := by
  induction es generalizing i with
  | nil => cases h
  | cons e es ih =>
    match i with
    | 0 =>
      cases h
      exact ⟨0, e, rfl, .inl ⟨rfl, rfl⟩⟩
    | 1 =>
      cases h
      exact ⟨0, e, rfl, .inr ⟨rfl, rfl⟩⟩
    | i + 2 =>
      obtain ⟨n, e', he', hi⟩ := ih (i := i) h
      exact ⟨n + 1, e', he', hi.imp (fun hi => ⟨by omega, hi.2⟩) fun hi => ⟨by omega, hi.2⟩⟩

/-- **Each part in the slots has a field**, where there are no more slots than fields for them. -/
theorem fieldParts_fst {fields : List Field} {slots : List (Option Value)}
    (hn : slots.length ≤ fields.countP fun f => !f.isLiteral) :
    (fieldParts fields slots).map Prod.fst = slots.filterMap id := by
  have hrows : (fields.zipIdx.filter fun p => !p.1.isLiteral).length =
      fields.countP fun f => !f.isLiteral := by
    rw [List.countP_eq_length_filter, ← zipIdx_filter_fst 0, List.length_map]
  calc (fieldParts fields slots).map Prod.fst
      = (((fields.zipIdx.filter fun p => !p.1.isLiteral).zip slots).map Prod.snd).filterMap id := by
        rw [fieldParts, List.map_filterMap, List.filterMap_map]
        refine List.filterMap_congr fun e _ => ?_
        obtain ⟨p, slot⟩ := e
        cases slot <;> rfl
    _ = slots.filterMap id := by rw [List.map_snd_zip (hrows ▸ hn)]

/-- The part of a number in the slots, with its field. -/
theorem exists_fieldPart {fields : List Field} {slots : List (Option Value)}
    (hn : slots.length ≤ fields.countP fun f => !f.isLiteral) {i : Nat} {z : Value}
    (hz : (slots.filterMap id)[i]? = some z) :
    ∃ f j, (fieldParts fields slots)[i]? = some (z, f, j) := by
  rw [← fieldParts_fst hn, List.getElem?_map] at hz
  obtain ⟨⟨z, f, j⟩, hpart, rfl⟩ := Option.map_eq_some_iff.mp hz
  exact ⟨f, j, hpart⟩

/-- What holds of the slots of fields, one by one, holds of the parts in the first of them. -/
theorem fieldPart_of_slots {fields : List Field} {taken rest : List (Option Value)}
    {Q : Field × Nat → Option Value → Prop}
    (h : List.Forall₂ Q (fields.zipIdx.filter fun p => !p.1.isLiteral) (taken ++ rest)) {i : Nat}
    {z : Value} {p : Field × Nat} (hz : (fieldParts fields taken)[i]? = some (z, p)) :
    Q p (some z) := by
  obtain ⟨⟨p', slot⟩, hmem, hpart⟩ := List.mem_filterMap.mp (List.mem_of_getElem? hz)
  obtain ⟨z', hz', hpair⟩ := Option.map_eq_some_iff.mp hpart
  cases hpair
  cases hz'
  obtain ⟨k, hk⟩ := List.getElem?_of_mem hmem
  obtain ⟨hrow, hslot⟩ := List.getElem?_zip_eq_some.mp hk
  have hslot' : (taken ++ rest)[k]? = some (some z) := by
    rw [List.getElem?_append_left (List.getElem?_eq_some_iff.mp hslot).1, hslot]
  exact List.forall₂_zip h (List.mem_of_getElem? (List.getElem?_zip_eq_some.mpr ⟨hrow, hslot'⟩))

/-- **Each part of slots that were taken is in the slot of a field**, and what holds of the slots
    holds of it there. -/
theorem Content.TakenAs.field {t : TypeExpr} {fields : List Field} {slots : List (Option Value)}
    {untaken : Nat} {content : Content Value}
    (h : (Content.fields slots).TakenAs t untaken content)
    (hlength : slots.length = fields.countP fun f => !f.isLiteral)
    {Q : Field × Nat → Option Value → Prop}
    (hslots : List.Forall₂ Q (fields.zipIdx.filter fun p => !p.1.isLiteral) slots) {i : Nat}
    {z : Value} (hz : content.parts[i]? = some z) : ∃ taken f j, content = .fields taken ∧
      (fieldParts fields taken)[i]? = some (z, f, j) ∧ Q (f, j) (some z) := by
  obtain ⟨taken, rest, rfl, rfl⟩ := h.of_fields
  rw [List.length_append] at hlength
  obtain ⟨f, j, hpart⟩ := exists_fieldPart (hlength ▸ Nat.le_add_right _ _) hz
  exact ⟨taken, f, j, rfl, hpart, fieldPart_of_slots hslots hpart⟩

/-- **Each part of entries that were taken is the key or the value of one of those on the wire.** It
    has the same number there, unless the type puts its entries in order. -/
theorem Content.TakenAs.entry {t : TypeExpr} {ps : List ((Value × Value) × (Bytes × Bytes))}
    {untaken : Nat} {content : Content Value}
    (h : (Content.entries (ps.map Prod.fst)).TakenAs t untaken content) {i : Nat} {z : Value}
    (hz : content.parts[i]? = some z) : ∃ es n m p, content = .entries es ∧ es[n]? = some p.1 ∧
      ps[m]? = some p ∧ (m = n ∨ ∃ kt vt, t = .map kt vt) ∧
      (i = n * 2 ∧ z = p.1.1 ∨ i = n * 2 + 1 ∧ z = p.1.2) := by
  obtain ⟨es, rfl, hperm, horder⟩ := h.of_entries
  obtain ⟨n, a, ha, hi⟩ := getElem?_pairs hz
  rcases horder with rfl | hmap
  · rw [List.getElem?_map] at ha
    obtain ⟨p, hp, rfl⟩ := Option.map_eq_some_iff.mp ha
    have hn : (ps.map Prod.fst)[n]? = some p.1 := by rw [List.getElem?_map, hp, Option.map_some]
    exact ⟨_, n, n, p, rfl, hn, hp, .inl rfl, hi⟩
  · obtain ⟨p, hp, rfl⟩ := List.mem_map.mp (hperm.mem_iff.mp (List.mem_of_getElem? ha))
    obtain ⟨m, hm⟩ := List.getElem?_of_mem hp
    exact ⟨es, n, m, p, rfl, ha, hm, .inr hmap, hi⟩

/-! ## 2. Parts of a collection that was read -/

/-- Members of a row that are items, one by one. -/
theorem Row.exists_items {α : Type} {P : α → Bytes → Prop} (hP : ∀ a x, P a x → IsItem x)
    {as : List α} {bytes : Bytes} (h : Row P as bytes) :
    ∃ xs, bytes = xs.flatten ∧ (∀ x ∈ xs, IsItem x) ∧ List.Forall₂ P as xs := by
  induction h with
  | nil => exact ⟨[], rfl, List.forall_mem_nil _, .nil⟩
  | cons hx _ ih =>
    obtain ⟨xs, rfl, hitems, hxs⟩ := ih
    exact ⟨_ :: xs, rfl, List.forall_mem_cons.mpr ⟨hP _ _ hx, hitems⟩, .cons hx hxs⟩

theorem exists_split {α : Type} {as : List α} {i : Nat} {a : α} (h : as[i]? = some a) :
    ∃ before behind, as = before ++ a :: behind ∧ before.length = i := by
  obtain ⟨hi, rfl⟩ := List.getElem?_eq_some_iff.mp h
  refine ⟨as.take i, as.drop (i + 1), ?_, List.length_take_of_le hi.le⟩
  rw [List.getElem_cons_drop, List.take_append_drop]

/-- The element of a number in an array. -/
theorem Gathers.element {xs : List Bytes} {u : Bytes} (h : Gathers .array xs u) {j : Nat}
    {x : Bytes} (hx : xs[j]? = some x) : ∃ pre post, u = pre ++ (x ++ post) ∧
    Stretch .array j [x] pre post := by
  obtain ⟨before, behind, rfl, rfl⟩ := exists_split hx
  have hsplit : Gathers .array (before ++ ([x] ++ behind)) u := h
  obtain ⟨pre, post, hu, hstretch⟩ := hsplit.stretch
  exact ⟨pre, post, by rw [hu, List.flatten_singleton], hstretch⟩

/-- The entry of a number in a map. -/
theorem Gathers.entry {es : List (Bytes × Bytes)} {u : Bytes} (h : Gathers .map (pairItems es) u)
    {n : Nat} {e : Bytes × Bytes} (he : es[n]? = some e) :
    ∃ pre post, u = pre ++ (e.1 ++ (e.2 ++ post)) ∧ Stretch .map (n * 2) [e.1, e.2] pre post := by
  obtain ⟨before, behind, rfl, rfl⟩ := exists_split he
  rw [pairItems_append, pairItems_cons] at h
  have hsplit : Gathers .map (pairItems before ++ ([e.1, e.2] ++ pairItems behind)) u := h
  obtain ⟨pre, post, hu, hstretch⟩ := hsplit.stretch
  rw [length_pairItems] at hstretch
  exact ⟨pre, post, by simpa using hu, hstretch⟩

/-- Entries one behind the other are their keys and values in turn. -/
theorem wireBytes_eq_flatten (ws : List (Bytes × Bytes)) :
    wireBytes ws = (pairItems ws).flatten := by
  induction ws with
  | nil => rfl
  | cons w ws ih =>
    show w.1 ++ w.2 ++ wireBytes ws = _
    rw [ih, pairItems_cons, List.flatten_cons, List.flatten_cons, List.append_assoc]

theorem items_of_pairs {ws : List (Bytes × Bytes)} (h : ∀ w ∈ ws, IsItem w.1 ∧ IsItem w.2) :
    ∀ x ∈ pairItems ws, IsItem x := by
  induction ws with
  | nil => exact List.forall_mem_nil _
  | cons w ws ih =>
    obtain ⟨hw, hws⟩ := List.forall_mem_cons.mp h
    exact List.forall_mem_cons.mpr ⟨hw.1, List.forall_mem_cons.mpr ⟨hw.2, ih hws⟩⟩

section places

variable {P : Value → Bytes → Prop} {parts : Parts} {u : Bytes} {v z : Value} {i untaken : Nat}

/-- **A part of an array stands in the element of its number, or in the place of its field.** -/
theorem Shape.ArrayAt.readPlace (hP : ∀ t z x, r.PartAt t z x → P z x) (h : s.ArrayAt r parts u)
    (hm : s.kind ≠ .map) (htaken : parts.content.TakenAs v.type untaken v.content)
    (hz : v.content.parts[i]? = some z) :
    ∃ pre x post, u = pre ++ (x ++ post) ∧ s.ReadPlace P v i pre x post ∧ P z x := by
  obtain ⟨e, front, body, content, n, inner, rfl, ho, hb, hholds, rfl⟩ := Shape.arrayAt_iff.mp h
  replace htaken : content.TakenAs v.type untaken v.content := htaken
  generalize hv : v.content = taken at htaken hz
  cases hholds with
  | items hl hrow =>
    cases htaken
    obtain ⟨xs, rfl, hitems, hxs⟩ := hrow.exists_items fun _ _ hat => hat.item
    obtain ⟨hi, rfl⟩ := List.getElem?_eq_some_iff.mp hz
    have hi' : i < xs.length := hxs.length_eq ▸ hi
    have hat := hxs.get hi hi'
    have hgathers := ho.gathers (w := 1) rfl hb (by rw [hxs.length_eq, Nat.mul_one]) rfl hitems
    obtain ⟨pre, post, hu, hstretch⟩ := hgathers.element (List.getElem?_eq_getElem hi')
    exact ⟨pre, _, post, hu, .item hl hstretch, hP _ _ _ hat⟩
  | fields hl hlaid =>
    rename_i fields slots
    obtain ⟨elements, rfl, rfl, hitems, hslots⟩ := hlaid.tupleSlots
    have hgathers := ho.gathers (w := 1) rfl hb (Nat.mul_one _).symm rfl hitems
    have hlength := ((hslots []).mayBeEmpty.length hl).trans (arity_of_layout hl)
    obtain ⟨taken, f, j, rfl, hpart, hover⟩ := htaken.field hlength (hslots []).slots hz
    rw [List.nil_append] at hover
    generalize hx : elements[j]? = x at hover
    cases hover with
    | element hf hat =>
      cases hat with
      | value hat _ =>
        obtain ⟨pre, post, hu, hstretch⟩ := hgathers.element hx
        exact ⟨pre, _, post, hu, .field hm hl hv hpart hstretch, hP _ _ _ hat⟩

/-- **A part of a map stands in the entry of its number, or under the key of its field.** -/
theorem Shape.MapAt.readPlace (hP : ∀ t z x, r.PartAt t z x → P z x) (h : s.MapAt r parts u)
    (hm : s.kind = .map) (hn : (s.fields.map Field.key).Nodup)
    (htaken : parts.content.TakenAs v.type untaken v.content) (hz : v.content.parts[i]? = some z) :
    ∃ pre x post, u = pre ++ (x ++ post) ∧ s.ReadPlace P v i pre x post ∧ P z x := by
  obtain ⟨e, front, body, content, n, inner, rfl, ho, hb, hholds, rfl⟩ := Shape.mapAt_iff.mp h
  replace htaken : content.TakenAs v.type untaken v.content := htaken
  generalize hv : v.content = taken at htaken hz
  cases hholds with
  | entries hl hes hkeys =>
    obtain ⟨ps, rfl, rfl, hps⟩ := hes.wire
    have hitems : ∀ x ∈ pairItems (ps.map Prod.snd), IsItem x := items_of_pairs fun w hw => by
      obtain ⟨p, hp, rfl⟩ := List.mem_map.mp hw
      exact ⟨(hps p hp).1.item, (hps p hp).2.item⟩
    have hgathers := ho.gathers (w := 2) rfl hb (by simp) (wireBytes_eq_flatten _) hitems
    have hentries : (ps.map fun p => (p.2.1, p.1)).map (fun e => e.2) = ps.map Prod.fst := by
      rw [List.map_map]
      rfl
    rw [hentries] at htaken
    obtain ⟨es, n, m, p, rfl, ha, hp, hm, hi⟩ := htaken.entry hz
    have hp' : (ps.map Prod.snd)[m]? = some p.2 := by rw [List.getElem?_map, hp, Option.map_some]
    obtain ⟨pre, post, hu, hstretch⟩ := hgathers.entry hp'
    obtain ⟨hk, hx⟩ := hps p (List.mem_of_getElem? hp)
    have hat : EntryPlace P v n p.2.1 p.2.2 pre post :=
      .mk hv ha (hP _ _ _ hk) (hP _ _ _ hx) hm hstretch
    rcases hi with ⟨rfl, rfl⟩ | ⟨rfl, rfl⟩
    · exact ⟨pre, _, _, hu, .key hl hat, hP _ _ _ hk⟩
    · exact ⟨_, _, post, by rw [hu, List.append_assoc], .value hl hat, hP _ _ _ hx⟩
  | fields hl hsteps hpresent =>
    rename_i fields found
    rw [Shape.fields_of_layout hl] at hn
    obtain ⟨ws, rfl, rfl, hset⟩ := exists_entrySet hn hsteps hpresent
    have hitems := items_of_pairs fun w hw => (hset.takes w hw).isItem
    have hgathers := ho.gathers (w := 2) rfl hb (length_pairItems ws)
        (wireBytes_eq_flatten ws) hitems
    have hlength := (hset.mayBeEmpty.length hl).trans (arity_of_layout hl)
    have hslots := hset.slots
    rw [← zipIdx_filter_fst 0, List.forall₂_map_left_iff] at hslots
    obtain ⟨taken, f, j, rfl, hpart, hslot⟩ := htaken.field hlength hslots hz
    cases hslot with
    | present hw hfinds =>
      obtain ⟨f', -, hkey, hk, hheld⟩ := hfinds
      dsimp only at hkey hheld
      rw [hkey] at hk
      obtain ⟨k, hk'⟩ := List.getElem?_of_mem hw
      obtain ⟨pre, post, hu, hstretch⟩ := hgathers.entry hk'
      cases hheld with
      | value _ hat =>
        refine ⟨_, _, post, ?_, .keyed hm hl hv hpart hk.widest hstretch, hP _ _ _ hat⟩
        rw [hu, List.append_assoc]

/-- **Each part of an item stands in its place behind the lead.** -/
theorem Shape.BodyAt.readPlace (hr : r.Sound) (hP : ∀ t z x, r.PartAt t z x → P z x) {t : TypeExpr}
    (hc : s.check t = .ok ()) (h : s.BodyAt r parts u)
    (htaken : parts.content.TakenAs v.type untaken v.content) (hz : v.content.parts[i]? = some z) :
    ∃ pre x post, u = pre ++ (x ++ post) ∧ s.ReadPlace P v i pre x post ∧ P z x := by
  cases h with
  | scalar hk h =>
    cases h with
    | mk _ _ =>
      generalize v.content = taken at htaken hz
      cases htaken <;> cases hz
  | array hk h =>
    have hm : s.kind ≠ .map := by rcases hk with hk | hk <;> simp [hk]
    exact h.readPlace hP hm htaken hz
  | map hk h => exact h.readPlace hP hk (check_keys hc hk) htaken hz
  | union hk h =>
    cases h with
    | mk _ hw =>
      generalize v.content = taken at htaken hz
      cases htaken
      cases i with
      | zero =>
        cases hz
        exact ⟨[], u, [], (List.append_nil u).symm, .variant hk, hP _ _ _ (hw.partAt hr).1⟩
      | succ i => cases hz

end places

/-! ## 3. Values that were read -/

/-- **Each part of a value that was read has its place in the bytes.** -/
theorem place_of_read {o : DecodeOptions} {n i : Nat} {v z : Value} {b : Bytes}
    (h : c.codec.ReadFrom o n v b) (hz : v.content.parts[i]? = some z) :
    ∃ m s tagged lead pre x post, n = m + 1 ∧ b = lead ++ (pre ++ (x ++ post)) ∧
      c.resolve v.type = .ok s ∧ s.Lead tagged lead ∧
      s.ReadPlace (c.codec.ReadFrom o m) v i pre x post ∧ c.codec.ReadFrom o m z x := by
  obtain ⟨m, rfl, hat⟩ := Codec.exists_readAt h
  cases hat with
  | mk hs hk hv =>
    have hc := (resolve_check hs).1
    obtain ⟨tagged, lead, w, parts, rfl, hlead, hbody, hcontent, -⟩ := hk.behind_lead hc
    have htaken := (construct_built hv).content
    rw [hcontent] at htaken
    have hP : ∀ t z x, (c.codec.reading o m).PartAt t z x → c.codec.ReadFrom o m z x := by
      rintro _ z x ⟨hreads, -, rfl⟩
      exact hreads
    obtain ⟨pre, x, post, rfl, hplace, hx⟩ := hbody.readPlace (c.codec.sound o m) hP hc htaken hz
    exact ⟨m, _, tagged, lead, pre, x, post, rfl, rfl, hs, hlead, hplace, hx⟩

/-- **Whatever is in a value that was read has its place in the bytes**, by induction on the
    path. -/
theorem lies_of_read {o : DecodeOptions} {n : Nat} {v y : Value} {b : Bytes} {path : List Nat}
    (h : c.codec.ReadFrom o n v b) (hy : v.at? path = some y) :
    ∃ pre u post, Lies c (c.codec.asRead o) n v b path y pre u post := by
  induction path generalizing n v b with
  | nil =>
    cases hy
    exact ⟨[], b, [], .here h⟩
  | cons i path ih =>
    obtain ⟨z, hz, hy⟩ := Option.bind_eq_some_iff.mp hy
    obtain ⟨m, s, tagged, lead, before, x, behind, rfl, rfl, hs, hlead, hplace, hx⟩ :=
      place_of_read h hz
    obtain ⟨pre, u, post, hl⟩ := ih hx hy
    exact ⟨_, u, _, .inside h hs hlead hz hplace hl⟩

end CborSchema
