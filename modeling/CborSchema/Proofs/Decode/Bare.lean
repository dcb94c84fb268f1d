import CborSchema.Proofs.Decode.Construct
import CborSchema.Proofs.Roundtrip.Parts

/-!
# Values up to their wire form

A value apart from the bytes kept in it and from how it was framed.

* `Value.bare` -- the value without either, at every depth; `mapContent_eq_map` -- and so its
  content;
* `Catalog.OrdersBare` -- an order of keys that is total and looks at nothing but bare keys;
* `orderEntries_distinct` -- entries that are put in order have keys that differ when they are bare;
* `Catalog.ordersBare_of_scalars` -- the order of scalar keys is such an order;
* `construct_bare` -- **bare parts are built into the bare value.**
-/

namespace CborSchema

variable {c : Catalog}

/-! ## 1. Bare values -/

/-- A style without the framing. -/
def ItemStyle.bare (style : ItemStyle) : ItemStyle := { style with indefinite := false }

/-- Notes without bytes, and without the framing that was seen or is to be written. -/
def Notes.bare (n : Notes) : Notes :=
  { n with observed := n.observed.bare, emit := n.emit.map ItemStyle.bare, raw := none }

/-- The value without the bytes kept in it and without its framing, at every depth. -/
def Value.bare (v : Value) : Value := v.mapNotes Notes.bare

theorem mapSlots_eq_map (f : Notes → Notes) (slots : List (Option Value)) :
    Value.mapSlots f slots = slots.map (Option.map (Value.mapNotes f)) := by
  induction slots with
  | nil => rfl
  | cons slot slots ih =>
    rw [Value.mapSlots, ih, List.map_cons]
    cases slot <;> rfl

theorem mapItems_eq_map (f : Notes → Notes) (vs : List Value) :
    Value.mapItems f vs = vs.map (Value.mapNotes f) := by
  induction vs with
  | nil => rfl
  | cons v vs ih => rw [Value.mapItems, ih, List.map_cons]

theorem mapEntries_eq_map (f : Notes → Notes) (es : List (Value × Value)) :
    Value.mapEntries f es = es.map fun e => (Value.mapNotes f e.1, Value.mapNotes f e.2) := by
  induction es with
  | nil => rfl
  | cons e es ih => rw [Value.mapEntries, ih, List.map_cons, Value.mapEntry]

/-- The notes in a content are changed part by part. -/
theorem mapContent_eq_map (f : Notes → Notes) (content : Content Value) :
    Value.mapContent f content = content.map (Value.mapNotes f) := by
  cases content with
  | scalar x => rfl
  | fields slots => rw [Value.mapContent, mapSlots_eq_map, Content.map]
  | items vs => rw [Value.mapContent, mapItems_eq_map, Content.map]
  | entries es => rw [Value.mapContent, mapEntries_eq_map, Content.map]
  | variant v => rfl

theorem Value.bare_node (t : TypeExpr) (content : Content Value) (n : Notes) :
    (Value.node t content n).bare = .node t (content.map Value.bare) n.bare := by
  rw [Value.bare, Value.mapNotes, mapContent_eq_map]
  rfl

theorem Value.type_bare (v : Value) : v.bare.type = v.type := by
  obtain ⟨t, content, n⟩ := v
  rw [Value.bare_node]
  rfl

/-- Parts without the bytes kept and without the framing. -/
def Parts.bare (p : Parts) : Parts :=
  { p with content := p.content.map Value.bare, style := p.style.bare, raw := none }

theorem content_bare (p : Parts) : p.bare.content = p.content.map Value.bare := rfl

theorem alternative_bare (p : Parts) : p.bare.alternative = p.alternative := rfl

theorem Content.kind_map {α β : Type} (f : α → β) (content : Content α) :
    (content.map f).kind = content.kind := by
  cases content <;> rfl

theorem unexpected_bare (p : Parts) (expected : String) :
    p.bare.unexpected expected = p.unexpected expected := by
  rw [Parts.unexpected, Parts.bare, Content.kind_map]
  rfl

/-! ## 2. Parts of a type -/

theorem scalar_bare (p : Parts) (form : ScalarForm) : p.bare.scalar form = p.scalar form := by
  unfold Parts.scalar
  rw [unexpected_bare, content_bare]
  cases p.content <;> rfl

theorem variant_bare (p : Parts) (accepted : Option (List TypeExpr)) :
    p.bare.variant accepted = (p.variant accepted).map Value.bare := by
  unfold Parts.variant
  rw [unexpected_bare, content_bare]
  cases p.content with
  | variant v =>
    cases accepted with
    | none => rfl
    | some types =>
      show (if types.contains v.bare.type then _ else _) = Except.map _ (if _ then _ else _)
      rw [Value.type_bare]
      split <;> rfl
  | _ => rfl

theorem ofType_bare (t : TypeExpr) (v : Value) :
    c.ofType t v.bare = (c.ofType t v).map Value.bare := by
  rw [Catalog.ofType, Catalog.ofType, Value.type_bare]
  split <;> rfl

theorem map_ok_bind {ε α β γ : Type} (g : α → β) (a : α) (f : β → Except ε γ) :
    ((Except.ok a).map g >>= f) = f (g a) := rfl

/-- Images that are checked as what they are images of. -/
theorem mapM_map_comm {ε α : Type} {f : α → Except ε α} {g : α → α}
    (hf : ∀ a, f (g a) = (f a).map g) (as : List α) :
    (as.map g).mapM f = (as.mapM f).map (List.map g) := by
  induction as with
  | nil => rfl
  | cons a as ih =>
    rw [List.map_cons, List.mapM_cons, List.mapM_cons, hf, ih]
    cases f a with
    | error e => rfl
    | ok b => cases as.mapM f <;> rfl

theorem items_bare (t : TypeExpr) (p : Parts) :
    c.items t p.bare = (c.items t p).map (List.map Value.bare) := by
  unfold Catalog.items
  rw [unexpected_bare, content_bare]
  cases p.content with
  | items vs => exact mapM_map_comm (ofType_bare t) vs
  | _ => rfl

/-- An entry with its key and its value bare. -/
def bareEntry (e : Value × Value) : Value × Value := (e.1.bare, e.2.bare)

theorem entries_bare (key value : TypeExpr) (p : Parts) :
    c.entries key value p.bare = (c.entries key value p).map (List.map bareEntry) := by
  unfold Catalog.entries
  rw [unexpected_bare, content_bare]
  cases p.content with
  | entries es =>
    refine mapM_map_comm (g := bareEntry) (fun e => ?_) es
    show (c.ofType key e.1.bare >>= fun k => _) = Except.map _ (c.ofType key e.1 >>= fun k => _)
    rw [ofType_bare, ofType_bare]
    cases c.ofType key e.1 with
    | error e => rfl
    | ok k => cases c.ofType value e.2 <;> rfl
  | _ => rfl

theorem takeSlots_bare (name : String) (takes : List Take) (slots : List (Option Value)) :
    c.takeSlots name takes (slots.map (Option.map Value.bare)) =
      (c.takeSlots name takes slots).map fun p => (p.1.map (Option.map Value.bare), p.2) := by
  induction takes generalizing slots with
  | nil =>
    rw [Catalog.takeSlots, Catalog.takeSlots, List.length_map]
    rfl
  | cons t ts ih =>
    cases slots with
    | nil => rfl
    | cons slot slots =>
      cases slot with
      | none =>
        rw [List.map_cons, Option.map_none, Catalog.takeSlots, Catalog.takeSlots, ih]
        split
        · cases c.takeSlots name ts slots <;> rfl
        · rfl
      | some v =>
        rw [List.map_cons, Option.map_some, Catalog.takeSlots, Catalog.takeSlots, ih, ofType_bare]
        cases c.ofType t.type v with
        | error e => rfl
        | ok w => cases c.takeSlots name ts slots <;> rfl

theorem contentOf_bare (s : Shape) (conversion : Conversion) (p : Parts) (asks : Asks) :
    c.contentOf s conversion p.bare asks =
      (c.contentOf s conversion p asks).map fun q => (q.1.map Value.bare, q.2) := by
  cases asks with
  | byShape =>
    rw [Catalog.contentOf, Catalog.contentOf, scalar_bare]
    cases p.scalar (s.scalarForm conversion) <;> rfl
  | scalar =>
    rw [Catalog.contentOf, Catalog.contentOf, scalar_bare]
    cases p.scalar (s.scalarForm conversion) <;> rfl
  | variant accepted =>
    rw [Catalog.contentOf, Catalog.contentOf, variant_bare]
    cases p.variant accepted <;> rfl
  | items item =>
    rw [Catalog.contentOf, Catalog.contentOf, items_bare]
    cases c.items item p <;> rfl
  | entries key value =>
    rw [Catalog.contentOf, Catalog.contentOf, entries_bare]
    cases c.entries key value p <;> rfl
  | fields takes =>
    have hfields : c.fields (takes.getD s.takes) p.bare = (c.fields (takes.getD s.takes) p).map
        fun q => (q.1.map (Option.map Value.bare), q.2) := by
      unfold Catalog.fields
      rw [unexpected_bare, content_bare]
      cases p.content with
      | fields slots => exact takeSlots_bare p.name _ slots
      | _ => rfl
    rw [Catalog.contentOf, Catalog.contentOf, hfields]
    cases c.fields (takes.getD s.takes) p <;> rfl

/-! ## 3. Orders of keys -/

/-- A total order of keys that looks at neither the bytes kept in them nor their framing. -/
structure Catalog.OrdersBare (c : Catalog) (key : TypeExpr) : Prop where
  bare : ∀ a b, c.compareKeys key a.bare b.bare = c.compareKeys key a b
  swap : ∀ a b, (c.compareKeys key a b).swap = c.compareKeys key b a
  trans : ∀ a b d, c.compareKeys key a b = .gt → c.compareKeys key b d = .gt →
    c.compareKeys key a d = .gt

theorem insertNew_bare {cmp : Value → Value → Ordering} (hcmp : ∀ a b, cmp a.bare b.bare = cmp a b)
    (k v : Value) (es : List (Value × Value)) : insertNew cmp k.bare v.bare (es.map bareEntry) =
      (insertNew cmp k v es).map (List.map bareEntry) := by
  induction es with
  | nil => rfl
  | cons e es ih =>
    rw [List.map_cons, insertNew, insertNew, bareEntry, hcmp, ih]
    cases cmp k e.1 with
    | lt => rfl
    | eq => rfl
    | gt => cases insertNew cmp k v es <;> rfl

theorem orderEntries_bare {cmp : Value → Value → Ordering}
    (hcmp : ∀ a b, cmp a.bare b.bare = cmp a b) (position : Nat) (done es : List (Value × Value)) :
    orderEntries cmp position (done.map bareEntry) (es.map bareEntry) =
      (orderEntries cmp position done es).map (List.map bareEntry) := by
  induction es generalizing position done with
  | nil => rfl
  | cons e es ih =>
    rw [List.map_cons, bareEntry, orderEntries, orderEntries, insertNew_bare hcmp]
    cases insertNew cmp e.1 e.2 done with
    | none => rfl
    | some done' => exact ih (position + 1) done'

/-- The keys of entries in ascending order. -/
def Ascending (cmp : Value → Value → Ordering) (es : List (Value × Value)) : Prop :=
  es.Pairwise fun e e' => cmp e'.1 e.1 = .gt

section order

variable {cmp : Value → Value → Ordering} (hswap : ∀ a b, (cmp a b).swap = cmp b a)
  (htrans : ∀ a b d, cmp a b = .gt → cmp b d = .gt → cmp a d = .gt)

include hswap

theorem cmp_of_lt {a b : Value} (h : cmp a b = .lt) : cmp b a = .gt := by
  rw [← hswap, h]
  rfl

theorem cmp_ne_eq_of_gt {a b : Value} (h : cmp a b = .gt) : cmp b a ≠ .eq := by
  rw [← hswap, h]
  decide

include htrans

/-- **A key that is put in its place is none of those there**, and keeps them in ascending order. -/
theorem insertNew_ascending {k v : Value} {es es' : List (Value × Value)} (h : Ascending cmp es)
    (hi : insertNew cmp k v es = some es') : Ascending cmp es' ∧ ∀ e ∈ es, cmp k e.1 ≠ .eq := by
  induction es generalizing es' with
  | nil =>
    cases hi
    exact ⟨List.pairwise_singleton _ _, by simp⟩
  | cons e es ih =>
    obtain ⟨hfirst, hrest⟩ := List.pairwise_cons.mp h
    rw [insertNew] at hi
    cases hcmp : cmp k e.1 with
    | lt =>
      rw [hcmp] at hi
      cases hi
      have hafter : ∀ e' ∈ e :: es, cmp e'.1 k = .gt := by
        intro e' he'
        have hk := cmp_of_lt hswap hcmp
        rcases List.mem_cons.mp he' with rfl | he'
        · exact hk
        · exact htrans _ _ _ (hfirst e' he') hk
      exact ⟨List.pairwise_cons.mpr ⟨hafter, h⟩, fun e' he' =>
        cmp_ne_eq_of_gt hswap (hafter e' he')⟩
    | eq =>
      rw [hcmp] at hi
      cases hi
    | gt =>
      rw [hcmp] at hi
      obtain ⟨es'', hrec, rfl⟩ := Option.map_eq_some_iff.mp hi
      obtain ⟨hasc, hne⟩ := ih hrest hrec
      refine ⟨List.pairwise_cons.mpr ⟨fun e' he' => ?_, hasc⟩, fun e' he' => ?_⟩
      · rcases List.mem_cons.mp ((insertNew_perm hrec).mem_iff.mp he') with rfl | he'
        · exact hcmp
        · exact hfirst e' he'
      · rcases List.mem_cons.mp he' with rfl | he'
        · rw [hcmp]
          decide
        · exact hne e' he'

/-- **Entries that can be put in order have different keys.** -/
theorem orderEntries_distinct {position : Nat} {done es es' : List (Value × Value)}
    (hdone : Ascending cmp done) (h : orderEntries cmp position done es = .ok es') :
    (∀ e ∈ es, ∀ d ∈ done, cmp e.1 d.1 ≠ .eq) ∧ es.Pairwise fun e e' => cmp e'.1 e.1 ≠ .eq := by
  induction es generalizing position done with
  | nil => exact ⟨by simp, .nil⟩
  | cons e es ih =>
    rw [orderEntries] at h
    split at h
    · rename_i done' hi
      obtain ⟨hdone', hnew⟩ := insertNew_ascending hswap htrans hdone hi
      obtain ⟨hrest, hpair⟩ := ih hdone' h
      have hmem := fun d => (insertNew_perm hi).mem_iff (a := d)
      refine ⟨fun e' he' d hd => ?_, List.pairwise_cons.mpr ⟨fun e' he' => ?_, hpair⟩⟩
      · rcases List.mem_cons.mp he' with rfl | he'
        · exact hnew d hd
        · exact hrest e' he' d ((hmem d).mpr (List.mem_cons_of_mem _ hd))
      · exact hrest e' he' _ ((hmem _).mpr List.mem_cons_self)
    · cases h

end order

/-- The keys of the entries of a map that is built differ, bare as they are. -/
theorem Catalog.OrdersBare.distinct {key value : TypeExpr} (h : c.OrdersBare key) {s : Shape}
    {p : Parts} {v : Value} (hv : c.construct (.map key value) s p = .ok v)
    {es : List (Value × Value)} (hes : p.content = .entries es) :
    es.Pairwise fun e e' => e.1.bare ≠ e'.1.bare := by
  obtain ⟨es', hentries, hv⟩ := Except.bind_eq_ok hv
  have hsame := (entries_eq_ok.mp hentries).1
  rw [hes, Content.entries.injEq] at hsame
  subst hsame
  split at hv
  · rename_i ordered horder
    obtain ⟨_, hpair⟩ := orderEntries_distinct h.swap h.trans .nil horder
    refine hpair.imp fun {e e'} hne hbare => hne ?_
    have hself : c.compareKeys key e.1 e.1 = .eq := Ordering.eq_eq_of_eq_swap (h.swap e.1 e.1).symm
    rw [← h.bare, ← hbare, h.bare, hself]
  · cases hv

/-! ## 4. The order of scalars -/

theorem compareBytes_swap (a b : Bytes) : (compareBytes a b).swap = compareBytes b a := by
  induction a generalizing b with
  | nil => cases b <;> rfl
  | cons x a ih =>
    cases b with
    | nil => rfl
    | cons y b =>
      rw [compareBytes, compareBytes, Ordering.swap_then, ih, Nat.compare_swap]

theorem compareBytes_trans {a b d : Bytes} (hab : compareBytes a b = .gt)
    (hbd : compareBytes b d = .gt) : compareBytes a d = .gt := by
  induction a generalizing b d with
  | nil => cases b <;> cases hab
  | cons x a ih =>
    cases b with
    | nil => cases d <;> cases hbd
    | cons y b =>
      cases d with
      | nil => rfl
      | cons z d =>
        rw [compareBytes, Ordering.then_eq_gt, Nat.compare_eq_gt, Nat.compare_eq_eq] at hab hbd ⊢
        rcases hab with hxy | ⟨hxy, hab⟩
        · rcases hbd with hyz | ⟨hyz, hbd⟩
          · exact .inl (by omega)
          · exact .inl (by omega)
        · rcases hbd with hyz | ⟨hyz, hbd⟩
          · exact .inl (by omega)
          · exact .inr ⟨by omega, ih hab hbd⟩

theorem Scalar.compare_swap (a b : Scalar) : (a.compare b).swap = b.compare a := by
  cases a <;> cases b <;> first
    | exact Nat.compare_swap _ _
    | exact Int.compare_swap _ _
    | exact compareBytes_swap _ _
    | exact Std.OrientedOrd.eq_swap.symm

theorem Scalar.compare_of_rank_ne {a b : Scalar} (h : a.rank ≠ b.rank) :
    a.compare b = Ord.compare a.rank b.rank := by
  cases a <;> cases b <;> first
    | rfl
    | exact absurd rfl h

theorem Scalar.rank_le_of_gt {a b : Scalar} (h : a.compare b = .gt) : b.rank ≤ a.rank := by
  by_cases hrank : a.rank = b.rank
  · omega
  · rw [compare_of_rank_ne hrank, Nat.compare_eq_gt] at h
    omega

/-- Scalars of one kind are in order by what they hold. -/
theorem Scalar.compare_trans_of_rank {a b d : Scalar} (hab : a.rank = b.rank)
    (hbd : b.rank = d.rank) (h : a.compare b = .gt) (h' : b.compare d = .gt) :
    a.compare d = .gt := by
  cases a <;> cases b <;> cases hab <;> cases d <;> cases hbd
  · rename_i a b d
    revert h h'
    cases a <;> cases b <;> cases d <;> decide
  · simp only [Scalar.compare, Nat.compare_eq_gt] at h h' ⊢
    omega
  · simp only [Scalar.compare, Nat.compare_eq_gt] at h h' ⊢
    omega
  · simp only [Scalar.compare, Int.compare_eq_gt] at h h' ⊢
    omega
  · exact compareBytes_trans h h'
  · exact compareBytes_trans h h'
  · cases h

theorem Scalar.compare_trans {a b d : Scalar} (h : a.compare b = .gt) (h' : b.compare d = .gt) :
    a.compare d = .gt := by
  have hba := rank_le_of_gt h
  have hdb := rank_le_of_gt h'
  by_cases hrank : a.rank = d.rank
  · exact compare_trans_of_rank (by omega) (by omega) h h'
  · rw [compare_of_rank_ne hrank, Nat.compare_eq_gt]
    omega

/-- **The order of scalar keys is total and looks at nothing but the scalars.** -/
theorem Catalog.ordersBare_of_scalars {key : TypeExpr}
    (h : c.compareKeys key = Value.compareScalars) : c.OrdersBare key := by
  have scalars : ∀ {a b : Value}, Value.compareScalars a b = .gt → ∃ x y, a.content = .scalar x ∧
      b.content = .scalar y ∧ x.compare y = .gt := by
    intro a b hgt
    unfold Value.compareScalars at hgt
    split at hgt
    · rename_i x y hx hy
      exact ⟨x, y, hx, hy, hgt⟩
    · cases hgt
  refine ⟨fun a b => ?_, fun a b => ?_, fun a b d hab hbd => ?_⟩
  · obtain ⟨t, content, n⟩ := a
    obtain ⟨t', content', n'⟩ := b
    rw [h, Value.bare_node, Value.bare_node]
    cases content <;> cases content' <;> rfl
  · rw [h]
    obtain ⟨t, content, n⟩ := a
    obtain ⟨t', content', n'⟩ := b
    cases content <;> cases content' <;> first
      | exact Scalar.compare_swap _ _
      | rfl
  · rw [h] at hab hbd ⊢
    obtain ⟨x, y, hx, hy, hxy⟩ := scalars hab
    obtain ⟨y', z, hy', hz, hyz⟩ := scalars hbd
    rw [hy, Content.scalar.injEq] at hy'
    subst hy'
    rw [Value.compareScalars, hx, hz]
    exact Scalar.compare_trans hxy hyz

/-! ## 5. Values -/

/-- A value of items with bare notes is built of the bare items. -/
theorem items_built_bare (t item : TypeExpr) (p : Parts) {n n' : Notes} (hn : n' = n.bare) :
    (do let vs ← c.items item p.bare; pure (Value.node t (.items vs) n')) =
      (do let vs ← c.items item p; pure (Value.node t (.items vs) n) :
        Except DecodeError Value).map Value.bare := by
  rw [items_bare, hn]
  cases c.items item p with
  | error e => rfl
  | ok vs => exact congrArg Except.ok (Value.bare_node t (.items vs) n).symm

/-- So is a value that keeps nothing but a scalar. -/
theorem constructScalar_bare (t : TypeExpr) (form : ScalarForm) (p : Parts) :
    Catalog.constructScalar t form p.bare =
      (Catalog.constructScalar t form p).map Value.bare := by
  rw [Catalog.constructScalar, Catalog.constructScalar, scalar_bare]
  cases p.scalar form <;> rfl

/-- An ordered map of bare entries has the order of the entries. -/
theorem constructMap_bare {key : TypeExpr} (horder : c.OrdersBare key) (value : TypeExpr)
    (p : Parts) :
    c.constructMap key value p.bare = (c.constructMap key value p).map Value.bare := by
  rw [Catalog.constructMap, Catalog.constructMap, entries_bare]
  cases c.entries key value p with
  | error e => rfl
  | ok es =>
    have hordered := orderEntries_bare horder.bare 0 [] es
    rw [List.map_nil] at hordered
    rw [map_ok_bind, Except.ok_bind, hordered]
    cases orderEntries (c.compareKeys key) 0 [] es with
    | error position => rfl
    | ok ordered =>
      exact congrArg Except.ok (Value.bare_node (.map key value) (.entries ordered) {}).symm

/-- A declared type builds the bare value of bare parts: no conversion looks at more. -/
theorem constructDeclared_bare (t : TypeExpr) (conversion : Conversion) (s : Shape) (p : Parts) :
    c.constructDeclared t conversion s p.bare =
      (c.constructDeclared t conversion s p).map Value.bare := by
  rw [Catalog.constructDeclared, Catalog.constructDeclared, contentOf_bare]
  cases conversion.reject with
  | some reason => rfl
  | none =>
    show (Except.map _ (c.contentOf s _ p _) >>= _) = Except.map _ (c.contentOf s _ p _ >>= _)
    cases c.contentOf s conversion p (s.asksFor conversion) with
    | error e => rfl
    | ok q =>
      refine congrArg Except.ok (Eq.trans ?_ (Value.bare_node _ q.1 _).symm)
      cases conversion.keepsStyle <;> rfl

/-- **Bare parts are built into the bare value**, and refused as the parts are. -/
theorem construct_bare {t : TypeExpr} (horder : ∀ key value, t = .map key value → c.OrdersBare key)
    (s : Shape) (p : Parts) : c.construct t s p.bare = (c.construct t s p).map Value.bare := by
  cases t with
  | bool | uint64 | uint32 | int64 | text | bytes | null => exact constructScalar_bare _ _ p
  | embedded =>
    rw [Catalog.construct, Catalog.construct, unexpected_bare, content_bare]
    cases p.content with
    | scalar x => cases x <;> rfl
    | _ => rfl
  | list item => exact items_built_bare (.list item) item p (n := {}) rfl
  | map key value => exact constructMap_bare (horder key value rfl) value p
  | framedList item => exact items_built_bare (.framedList item) item p rfl
  | taggedSet item => exact items_built_bare (.taggedSet item) item p rfl
  | anyConstructor field =>
    rw [Catalog.construct, Catalog.construct, alternative_bare]
    cases p.alternative with
    | none => rfl
    | some index => exact items_built_bare (.anyConstructor field) field p rfl
  | named name => exact constructDeclared_bare (.named name) (c.declared name).conversion s p

end CborSchema
