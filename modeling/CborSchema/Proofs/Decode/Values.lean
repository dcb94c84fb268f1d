import CborSchema.Decode.Value
import CborSchema.Proofs.Decode.Construct
import CborSchema.Proofs.Decode.Constructors
import CborSchema.Proofs.Decode.Maps
import Mathlib

/-!
# Values on the wire

Which bytes hold a value of a type.

* `Wins` -- the candidate that takes an item: the first that reads all of it;
* `Shape.KindAt`, `Shape.ItemAt`, `Shape.KeptAt` -- an item by the kind of the shape, with the tag
  in front of it, with its bytes where the shape keeps them; `KeptAt.behind_tag`: what is behind the
  tag;
* `Codec.ReadAt` -- a value of a type, with parts one level below;
* `read_reads`, `read_yields` -- this is what is read, and nothing else is;
* `Codec.sound` -- **whatever is read is read off one item**, by induction on the nesting.

The one module that imports Mathlib whole. The modules built on it evaluate readers and writers at
fixed inputs by `cbv`, which unfolds library functions (`List.lookup`, `Option.isNone`,
`ByteArray.push`) by their equations: it uses those stated somewhere in Mathlib, and where it sees
none, it derives copies of them in each module.
-/

namespace CborSchema

open Decoder

variable {s : Shape} {r : Reading} {catalog : Catalog}

/-! ## 1. Unions -/

/-- The value of the first type in a list that reads all of an item. A faulty declaration before it
    would end the run. -/
inductive Wins (r : Reading) (span : Bytes) : List TypeExpr → Value → Prop where
  | here {t : TypeExpr} {ts : List TypeExpr} {v : Value}
      (hv : ((r.part t).whole span).result = .ok v) : Wins r span (t :: ts) v
  | later {t : TypeExpr} {ts : List TypeExpr} {v : Value} {e : DecodeError}
      (he : ((r.part t).whole span).result = .error e) (hc : ∀ f, e ≠ .config f)
      (hw : Wins r span ts v) : Wins r span (t :: ts) v

section candidates

variable {name : String} {span : Bytes} {failed : List (String × DecodeError)} {t : TypeExpr}
  {ts : List TypeExpr} {v : Value}

theorem firstCandidate_ok (hv : ((r.part t).whole span).result = .ok v) :
    (firstCandidate r catalog name span failed (t :: ts)).result = .ok v := by
  rw [firstCandidate]
  dsimp only
  rw [hv]

theorem firstCandidate_config {f : ConfigError}
    (he : ((r.part t).whole span).result = .error (.config f)) :
    (firstCandidate r catalog name span failed (t :: ts)).result = .error (.config f) := by
  rw [firstCandidate]
  dsimp only
  rw [he]

theorem firstCandidate_error {e : DecodeError} (he : ((r.part t).whole span).result = .error e)
    (hc : ∀ f, e ≠ .config f) :
    (firstCandidate r catalog name span failed (t :: ts)).result =
      (firstCandidate r catalog name span (failed ++ [(catalog.printName t, e)]) ts).result := by
  rw [firstCandidate]
  dsimp only
  split
  · rename_i w hw
    rw [he] at hw
    cases hw
  · rename_i f hf
    rw [he, Except.error.injEq] at hf
    exact absurd hf (hc f)
  · rename_i e' _ he'
    rw [he, Except.error.injEq] at he'
    rw [he']

theorem firstCandidate_ok_iff :
    (firstCandidate r catalog name span failed ts).result = .ok v ↔ Wins r span ts v := by
  induction ts generalizing failed with
  | nil =>
    constructor
    · intro h
      cases h
    · intro h
      cases h
  | cons t ts ih =>
    constructor
    · intro h
      cases hx : ((r.part t).whole span).result with
      | ok w =>
        rw [firstCandidate_ok hx] at h
        cases h
        exact .here hx
      | error e =>
        by_cases hc : ∃ f, e = .config f
        · obtain ⟨f, rfl⟩ := hc
          rw [firstCandidate_config hx] at h
          cases h
        · have hc : ∀ f, e ≠ .config f := fun f h => hc ⟨f, h⟩
          rw [firstCandidate_error hx hc] at h
          exact .later hx hc (ih.mp h)
    · intro h
      cases h with
      | here hv => exact firstCandidate_ok hv
      | later he hc hw =>
        rw [firstCandidate_error he hc]
        exact ih.mpr hw

end candidates

theorem Wins.partAt (hr : r.Sound) {span : Bytes} {ts : List TypeExpr} {v : Value}
    (h : Wins r span ts v) : r.PartAt v.type v span ∧ v.type ∈ ts := by
  induction h with
  | here hv =>
    obtain ⟨hreads, hitem, rfl⟩ := (hr _).whole hv
    exact ⟨⟨hreads, hitem, rfl⟩, List.mem_cons_self⟩
  | later _ _ _ ih => exact ⟨ih.1, List.mem_cons_of_mem _ ih.2⟩

/-- A union of a shape. -/
inductive Shape.UnionAt (s : Shape) (r : Reading) : Parts → Bytes → Prop where
  | mk {v : Value} {u : Bytes} (hi : Item (r.depth + 1) u) (hw : Wins r u s.candidates v) :
      UnionAt s r { name := s.name, content := .variant v } u

theorem readUnion_reads {parts : Parts} {u : Bytes} (h : s.UnionAt r parts u) :
    (s.readUnion r catalog).Reads u parts := by
  cases h with
  | mk hi hw =>
    refine Reads.bind_nil (Reads.scan (Scan.item_reads hi)) ?_
    refine Reads.bind_nil (u := []) (fun rest => ?_) (Reads.pure _)
    show (firstCandidate r catalog s.name u [] s.candidates >>= _).result = _
    rw [Outcome.result_bind, firstCandidate_ok_iff.mpr hw]
    rfl

theorem readUnion_yields (s : Shape) (r : Reading) (catalog : Catalog) :
    (s.readUnion r catalog).Yields (s.UnionAt r) := by
  refine Yields.of_reads (fun _ _ => readUnion_reads) fun bytes parts rest h => ?_
  obtain ⟨span, mid, h1, h2⟩ := bind_eq_ok h
  obtain ⟨u, rfl, _, rfl, hi⟩ := Scan.item_yields r.depth _ span mid (ofScan_eq_ok.mp h1)
  obtain ⟨v, mid', h3, h4⟩ := bind_eq_ok h2
  have h3' : (firstCandidate r catalog s.name span [] s.candidates >>= fun v =>
      (pure (v, mid) : Outcome DecodeError (Value × Bytes))).result = .ok (v, mid') := h3
  rw [Outcome.result_bind] at h3'
  cases hf : (firstCandidate r catalog s.name span [] s.candidates).result with
  | error e => rw [hf] at h3'; cases h3'
  | ok w =>
    rw [hf] at h3'
    cases h3'
    cases h4
    exact ⟨span, rfl, .mk hi (firstCandidate_ok_iff.mp hf)⟩

/-! ## 2. Items -/

/-- An item by the kind of the shape. -/
inductive Shape.KindAt (s : Shape) (r : Reading) (parts : Parts) (u : Bytes) : Prop where
  | scalar {p : Primitive} (hk : s.kind = .scalar p) (h : s.ScalarAt r p parts u)
  | list (hk : s.kind = .list) (h : s.ArrayAt r parts u)
  | map (hk : s.kind = .map) (h : s.MapAt r parts u)
  | constructor (hk : s.kind = .constructor) (h : s.ConstructorAt r parts u)
  | union (hk : s.kind = .union) (h : s.UnionAt r parts u)

theorem readKind_reads {parts : Parts} {u : Bytes} (h : s.KindAt r parts u) :
    (s.readKind r catalog).Reads u parts := by
  rw [Shape.readKind]
  cases h with
  | scalar hk h =>
    rw [hk]
    exact readScalar_reads h
  | list hk h =>
    rw [hk]
    exact readArray_reads h
  | map hk h =>
    rw [hk]
    exact readMap_reads h
  | constructor hk h =>
    rw [hk]
    exact readConstructor_reads h
  | union hk h =>
    rw [hk]
    exact readUnion_reads h

theorem readKind_yields (hr : r.Sound) (s : Shape) (catalog : Catalog) :
    (s.readKind r catalog).Yields (s.KindAt r) := by
  rw [Shape.readKind]
  split
  · rename_i p hk
    exact (readScalar_yields s r p).mono fun _ _ _ h => .scalar hk h
  · rename_i hk
    exact (readArray_yields hr s).mono fun _ _ _ h => .list hk h
  · rename_i hk
    exact (readMap_yields hr s).mono fun _ _ _ h => .map hk h
  · rename_i hk
    exact (readConstructor_yields hr s).mono fun _ _ _ h => .constructor hk h
  · rename_i hk
    exact (readUnion_yields s r catalog).mono fun _ _ _ h => .union hk h

theorem Shape.UnionAt.item {parts : Parts} {u : Bytes} (h : s.UnionAt r parts u) : IsItem u := by
  cases h with
  | mk hi hw => exact hi.isItem

theorem Shape.KindAt.item {parts : Parts} {u : Bytes} (h : s.KindAt r parts u) : IsItem u := by
  cases h with
  | scalar hk h => exact h.item.isItem
  | list hk h => exact h.item
  | map hk h => exact h.item
  | constructor hk h => exact h.item
  | union hk h => exact h.item

/-- **The parts of an item lie in its bytes**, where the keys of the fields differ. -/
theorem Shape.KindAt.cut (hr : r.Sound) {parts : Parts} {u : Bytes} (h : s.KindAt r parts u)
    (hn : s.kind = .map → (s.fields.map Field.key).Nodup) : r.Cut parts.content.parts u := by
  cases h with
  | scalar hk h =>
    cases h with
    | mk hh hs => exact .own _
  | list hk h => exact h.cut
  | map hk h => exact h.cut (hn hk)
  | constructor hk h => exact h.cut
  | union hk h =>
    cases h with
    | mk hi hw => exact (hw.partAt hr).1.cut

/-! ## 3. Tags -/

/-- An item with the tag in front of it. -/
inductive Shape.ItemAt (s : Shape) (r : Reading) : Parts → Bytes → Prop where
  | untagged {parts : Parts} {u : Bytes} (ht : s.tag = none) (hk : s.KindAt r parts u) :
      ItemAt s r { parts with style := { parts.style with tagged := false } } u
  | absent {tag : UInt64} {h : Head} {parts : Parts} {u : Bytes} (ht : s.tag = some (.optional tag))
      (hh : StartsHead h u) (hm : h.major ≠ .tag) (hk : s.KindAt r parts u) :
      ItemAt s r { parts with style := { parts.style with tagged := false } } u
  | tagged {rule : TagRule} {h : Head} {parts : Parts} {front u : Bytes} (ht : s.tag = some rule)
      (hh : h.Spelled front) (hm : h.major = .tag) (ha : h.arg.getD 0 = rule.number)
      (hk : s.KindAt r parts u) :
      ItemAt s r { parts with style := { parts.style with tagged := true } } (front ++ u)

theorem readItem_untagged (ht : s.tag = none) : s.readItem r catalog = s.readKind r catalog >>=
    fun parts => pure { parts with style := { parts.style with tagged := false } } := by
  rw [Shape.readItem, Shape.readTagBefore, ht]
  exact pure_bind _ _

/-- What comes after looking at the head in front of an item: whether it was its tag. -/
def Shape.takeTag (s : Shape) (rule : TagRule) (h : Head) : Decoder Bool :=
  if h.major ≠ .tag then
    match rule with
    | .required expected => Decoder.fail (.missingTag s.name expected)
    | .optional _ => pure false
  else
    let found := h.arg.getD 0
    if found ≠ rule.number then Decoder.fail (.unexpectedTag s.name rule.number found)
    else (liftM (Scan.head s.name) : Decoder Head) >>= fun _ => pure true

theorem readItem_tag {rule : TagRule} (ht : s.tag = some rule) : s.readItem r catalog =
    (liftM (Scan.peek (Scan.head s.name)) : Decoder Head) >>= fun h => s.takeTag rule h >>=
      fun tagged => s.readKind r catalog >>= fun parts =>
        pure { parts with style := { parts.style with tagged } } := by
  rw [Shape.readItem, Shape.readTagBefore, ht, bind_assoc]
  rfl

theorem readItem_reads {parts : Parts} {u : Bytes} (h : s.ItemAt r parts u) :
    (s.readItem r catalog).Reads u parts := by
  cases h with
  | untagged ht hk =>
    rw [readItem_untagged ht]
    exact Reads.bind_nil (readKind_reads hk) (Reads.pure _)
  | absent ht hh hm hk =>
    rw [readItem_tag ht]
    refine Reads.peek hh ?_
    rw [Shape.takeTag.eq_def, if_pos hm, pure_bind]
    exact Reads.bind_nil (readKind_reads hk) (Reads.pure _)
  | tagged ht hh hm ha hk =>
    rw [readItem_tag ht]
    refine Reads.peek (hh.starts _) ?_
    rw [Shape.takeTag.eq_def, if_neg (not_not.mpr hm)]
    dsimp only
    rw [if_neg (not_not.mpr ha)]
    refine Reads.bind (Reads.bind_nil (Reads.scan (hh _)) (Reads.pure true)) ?_
    exact Reads.bind_nil (readKind_reads hk) (Reads.pure _)

theorem readItem_yields (hr : r.Sound) (s : Shape) (catalog : Catalog) :
    (s.readItem r catalog).Yields (s.ItemAt r) := by
  cases ht : s.tag with
  | none =>
    rw [readItem_untagged ht]
    refine (readKind_yields hr s catalog).bind fun parts u hk => Yields.pure ?_
    rw [List.append_nil]
    exact .untagged ht hk
  | some rule =>
    rw [readItem_tag ht]
    refine Yields.peek fun h => ?_
    have htag : (s.takeTag rule h).Yields fun tagged front =>
        (tagged = false ∧ front = [] ∧ h.major ≠ .tag ∧ ∃ tag, rule = .optional tag) ∨
        (tagged = true ∧ h.major = .tag ∧ h.arg.getD 0 = rule.number ∧
          ∃ h' : Head, h'.Spelled front) := by
      rw [Shape.takeTag.eq_def]
      split
      · rename_i hm
        split
        · exact Yields.fail _
        · exact Yields.pure (.inl ⟨rfl, rfl, hm, _, rfl⟩)
      · rename_i hm
        dsimp only
        split
        · exact Yields.fail _
        · rename_i ha
          refine (Yields.scan (head_yields s.name)).bind fun h' front hh => Yields.pure ?_
          rw [List.append_nil]
          exact .inr ⟨rfl, not_not.mp hm, not_not.mp ha, h', hh⟩
    refine htag.bind fun tagged front hfront => ?_
    refine (readKind_yields hr s catalog).bind fun parts u hk => Yields.pure ?_
    rw [List.append_nil]
    rcases hfront with ⟨rfl, rfl, hm, tag, rfl⟩ | ⟨rfl, hm, ha, h', hh⟩
    · exact ⟨hk.item.startsHead, fun hs => .absent ht hs hm hk⟩
    · refine ⟨⟨h', hh.starts u⟩, fun hs => ?_⟩
      obtain rfl := hs.unique (hh.starts u)
      exact .tagged ht hh hm ha hk

theorem Shape.ItemAt.item {parts : Parts} {u : Bytes} (h : s.ItemAt r parts u) : IsItem u := by
  cases h with
  | untagged ht hk => exact hk.item
  | absent ht hh hm hk => exact hk.item
  | tagged ht hh hm ha hk => exact (ItemOf.tagged hh hm hk.item).isItem

theorem Shape.ItemAt.cut (hr : r.Sound) {parts : Parts} {u : Bytes} (h : s.ItemAt r parts u)
    (hn : s.kind = .map → (s.fields.map Field.key).Nodup) : r.Cut parts.content.parts u := by
  cases h with
  | untagged ht hk => exact hk.cut hr hn
  | absent ht hh hm hk => exact hk.cut hr hn
  | tagged ht hh hm ha hk => exact .front _ (hk.cut hr hn)

/-! ## 4. Kept bytes -/

/-- An item with its bytes, where the shape keeps them. -/
inductive Shape.KeptAt (s : Shape) (r : Reading) : Parts → Bytes → Prop where
  | kept {parts : Parts} {u : Bytes} (hp : s.preserveRaw = true) (hi : s.ItemAt r parts u) :
      KeptAt s r { parts with raw := some u } u
  | dropped {parts : Parts} {u : Bytes} (hp : s.preserveRaw = false) (hi : s.ItemAt r parts u) :
      KeptAt s r parts u

/-- **Behind its tag an item is of the kind of the shape**, with its content and its index. -/
theorem Shape.ItemAt.behind_tag {parts : Parts} {u : Bytes} (h : s.ItemAt r parts u) :
    ∃ front inner parts', u = front ++ inner ∧ s.KindAt r parts' inner ∧
      parts.content = parts'.content ∧ parts.alternative = parts'.alternative ∧
      (front = [] ∨ ∃ h : Head, h.Spelled front ∧ h.major = .tag) := by
  cases h with
  | untagged _ hk => exact ⟨[], u, _, rfl, hk, rfl, rfl, .inl rfl⟩
  | absent _ _ _ hk => exact ⟨[], u, _, rfl, hk, rfl, rfl, .inl rfl⟩
  | tagged _ hh hm _ hk => exact ⟨_, _, _, rfl, hk, rfl, rfl, .inr ⟨_, hh, hm⟩⟩

theorem Shape.KeptAt.behind_tag {parts : Parts} {u : Bytes} (h : s.KeptAt r parts u) :
    ∃ front inner parts', u = front ++ inner ∧ s.KindAt r parts' inner ∧
      parts.content = parts'.content ∧ parts.alternative = parts'.alternative ∧
      (front = [] ∨ ∃ h : Head, h.Spelled front ∧ h.major = .tag) := by
  cases h with
  | kept _ hi =>
    have hitem := hi.behind_tag
    exact hitem
  | dropped _ hi => exact hi.behind_tag

theorem readKept_reads {parts : Parts} {u : Bytes} (h : s.KeptAt r parts u) :
    (s.readKept r catalog).Reads u parts := by
  rw [Shape.readKept]
  cases h with
  | kept hp hi =>
    rw [if_pos hp]
    exact Reads.bind_nil (readItem_reads hi).spanned (Reads.pure _)
  | dropped hp hi =>
    rw [if_neg (by rw [hp]; exact Bool.false_ne_true)]
    exact readItem_reads hi

theorem readKept_yields (hr : r.Sound) (s : Shape) (catalog : Catalog) :
    (s.readKept r catalog).Yields (s.KeptAt r) := by
  rw [Shape.readKept]
  split
  · rename_i hp
    refine (readItem_yields hr s catalog).spanned.bind fun p u hu => Yields.pure ?_
    obtain ⟨rfl, _, hi⟩ := hu
    rw [List.append_nil]
    exact .kept hp hi
  · rename_i hp
    exact (readItem_yields hr s catalog).mono fun parts u _ hi => .dropped (by simpa using hp) hi

theorem Shape.KeptAt.item {parts : Parts} {u : Bytes} (h : s.KeptAt r parts u) : IsItem u := by
  cases h with
  | kept hp hi => exact hi.item
  | dropped hp hi => exact hi.item

theorem Shape.KeptAt.cut (hr : r.Sound) {parts : Parts} {u : Bytes} (h : s.KeptAt r parts u)
    (hn : s.kind = .map → (s.fields.map Field.key).Nodup) : r.Cut parts.content.parts u := by
  cases h with
  | kept hp hi => exact hi.cut hr hn
  | dropped hp hi => exact hi.cut hr hn

/-! ## 5. Values -/

/-- What the readers of the kinds share one level below. -/
def Codec.reading (c : Codec) (o : DecodeOptions) (depth : Nat) : Reading :=
  ⟨o, depth, c.read o depth⟩

/-- A value of a type, with its parts one level below. -/
inductive Codec.ReadAt (c : Codec) (o : DecodeOptions) (depth : Nat) (t : TypeExpr) :
    Value → Bytes → Prop where
  | mk {s : Shape} {parts : Parts} {v : Value} {u : Bytes} (hs : c.resolve t = .ok s)
      (hk : s.KeptAt (c.reading o depth) parts u) (hv : c.catalog.construct t s parts = .ok v) :
      ReadAt c o depth t v u

namespace Codec

variable {c : Codec} {o : DecodeOptions}

theorem shape_reads {t : TypeExpr} (hs : c.resolve t = .ok s) : (c.shape t).Reads [] s := by
  intro rest
  show (c.reach DecodeError.config t >>= fun s => pure (s, [] ++ rest)).result = _
  rw [Outcome.result_bind, reach, hs]
  rfl

theorem shape_yields (c : Codec) (t : TypeExpr) :
    (c.shape t).Yields fun s u => u = [] ∧ c.resolve t = .ok s := by
  refine Yields.of_reads ?_ fun bytes s rest h => ?_
  · rintro s _ ⟨rfl, hs⟩
    exact shape_reads hs
  · have h' : (c.reach DecodeError.config t >>= fun s =>
        (pure (s, bytes) : Outcome DecodeError (Shape × Bytes))).result = .ok (s, rest) := h
    rw [Outcome.result_bind, reach] at h'
    cases hs : c.resolve t with
    | error e => rw [hs] at h'; cases h'
    | ok s' =>
      rw [hs] at h'
      cases h'
      exact ⟨[], rfl, rfl, rfl⟩

/-- A type that resolves is read by its shape. -/
theorem read_of_resolves {depth : Nat} {t : TypeExpr} (hs : c.resolve t = .ok s) (bytes : Bytes) :
    (c.read o (depth + 1) t bytes).result =
      ((s.readKept (c.reading o depth) c.catalog >>= fun parts =>
        Decoder.ofExcept (c.catalog.construct t s parts)) bytes).result :=
  bind_of_ok (show (c.shape t bytes).result = .ok (s, bytes) from shape_reads hs bytes)

theorem read_reads {depth : Nat} {t : TypeExpr} {v : Value} {u : Bytes}
    (h : c.ReadAt o depth t v u) : (c.read o (depth + 1) t).Reads u v := by
  cases h with
  | mk hs hk hv =>
    refine Reads.bind (u := []) (shape_reads hs) ?_
    exact Reads.bind_nil (readKept_reads hk) (Reads.ofExcept hv)

/-- **A value is read off the bytes that hold it, and off no others.** -/
theorem read_yields {depth : Nat} (hr : (c.reading o depth).Sound) (t : TypeExpr) :
    (c.read o (depth + 1) t).Yields (c.ReadAt o depth t) := by
  refine (shape_yields c t).bind fun s u hs => ?_
  obtain ⟨rfl, hs⟩ := hs
  refine (readKept_yields hr s c.catalog).bind fun parts u hk => ?_
  refine Yields.ofExcept fun v hv => ?_
  rw [List.append_nil]
  exact .mk hs hk hv

/-- What is read off bytes is a value with its parts one level below. -/
theorem readAt_of_reads {depth : Nat} {t : TypeExpr} {u : Bytes} {v : Value}
    (hr : (c.reading o depth).Sound) (h : (c.read o (depth + 1) t).Reads u v) :
    c.ReadAt o depth t v u := by
  obtain ⟨used, hu, _, hat⟩ := read_yields hr t u v [] h.alone
  rw [List.append_nil] at hu
  exact hu ▸ hat

/-- What is read of a type is read by its shape. -/
theorem ReadAt.keptAt {depth : Nat} {t : TypeExpr} {u : Bytes} {v : Value}
    (h : c.ReadAt o depth t v u) (hs : c.resolve t = .ok s) :
    ∃ parts, s.KeptAt (c.reading o depth) parts u ∧ c.catalog.construct t s parts = .ok v := by
  cases h with
  | mk hs' hk hv =>
    obtain rfl := Except.ok.inj (hs.symm.trans hs')
    exact ⟨_, hk, hv⟩

/-- **Whatever is read is read off one item, and is of the type that was asked for.** -/
theorem sound (c : Codec) (o : DecodeOptions) (depth : Nat) : (c.reading o depth).Sound := by
  induction depth with
  | zero =>
    intro t
    exact (shape_yields c t).bind fun s u _ => Yields.fail _
  | succ depth ih =>
    intro t
    refine (read_yields ih t).mono fun v u _ h => ?_
    cases h with
    | mk hs hk hv => exact ⟨hk.item, (construct_built hv).type⟩

theorem read_partAt (c : Codec) (o : DecodeOptions) (depth : Nat) (t : TypeExpr) :
    (c.read o depth t).Yields ((c.reading o depth).PartAt t) := (sound c o depth).partAt t

end Codec

end CborSchema
