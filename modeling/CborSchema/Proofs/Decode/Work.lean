import CborSchema.Proofs.Decode.Unions

/-!
# Work per byte

How many values a run begins to read, those of failed candidates included. Each is a type it
reaches.

* `Decoder.Costs n d` -- the bytes a decoder uses up pay for the values it begins to read, at a
  price of `n` for each byte; one that fails may have begun `n` more. Bytes that are left keep what
  they are worth, so that the price of two steps is the price of each;
* `Shape.price` -- what a byte of an item of a shape is worth, told by the prices of its part types.
  The candidates of a union decode the same bytes one after the other, so their prices add up;
* `Codec.price` -- the price of a type, by recursion on the nesting that is left;
* `Codec.read_costs` -- **a read begins no more values than its bytes pay for**, whatever the bytes.
-/

namespace CborSchema

/-! ## 1. Decoders -/

namespace Outcome

variable {ε α β : Type} {x : Outcome ε α} {f : α → Outcome ε β}

theorem reached_bind_of_ok {a : α} (h : x.result = .ok a) :
    (x >>= f).reached = x.reached ++ (f a).reached := by
  rw [reached_bind, h]

theorem reached_bind_of_error {e : ε} (h : x.result = .error e) :
    (x >>= f).reached = x.reached := by
  rw [reached_bind, h, List.append_nil]

end Outcome

namespace Decoder

variable {α β σ : Type} {n : Nat}

/-- At a price of `n`, the bytes used up pay for the types reached; where the decoder fails, `n`
    more may be reached. -/
structure Costs (n : Nat) (d : Decoder α) : Prop where
  answers : ∀ bytes a rest, (d bytes).result = .ok (a, rest) →
    (d bytes).reached.length + n * rest.length ≤ n * bytes.length
  fails : ∀ bytes e, (d bytes).result = .error e → (d bytes).reached.length ≤ n * bytes.length + n

/-- What reaches no type and does not add bytes costs nothing. -/
theorem Costs.free {d : Decoder α} (hreached : ∀ bytes, (d bytes).reached = [])
    (hrest : ∀ bytes a rest, (d bytes).result = .ok (a, rest) → rest.length ≤ bytes.length) :
    d.Costs n where
  answers bytes a rest h := by
    rw [hreached, List.length_nil, Nat.zero_add]
    exact Nat.mul_le_mul_left n (hrest bytes a rest h)
  fails bytes e h := by
    rw [hreached]
    exact Nat.zero_le _

theorem Costs.pure (a : α) : (Pure.pure a : Decoder α).Costs n := by
  refine Costs.free (fun _ => rfl) fun bytes b rest h => ?_
  cases h
  exact Nat.le_refl _

theorem Costs.fail (e : DecodeError) : (Decoder.fail e : Decoder α).Costs n := by
  refine Costs.free (fun _ => rfl) fun bytes b rest h => ?_
  cases h

theorem Costs.ofExcept (x : Except DecodeError α) : (Decoder.ofExcept x).Costs n := by
  cases x with
  | ok a => exact Costs.pure a
  | error e => exact Costs.fail e

theorem ofScan_reached (s : Scan α) (bytes : Bytes) :
    ((liftM s : Decoder α) bytes).reached = [] := by
  show (ofScan s bytes).reached = []
  unfold ofScan
  split
  · rfl
  · rfl

theorem Costs.scan {s : Scan α} {P : α → Bytes → Prop} (h : s.Yields P) :
    (liftM s : Decoder α).Costs n := by
  refine Costs.free (ofScan_reached s) fun bytes a rest hr => ?_
  obtain ⟨u, rfl, _⟩ := h bytes a rest (ofScan_eq_ok.mp hr)
  rw [List.length_append]
  exact Nat.le_add_left _ _

/-- A scan that only looks ahead. -/
theorem Costs.ahead {s : Scan α} (h : ∀ bytes, (s bytes).2 = bytes) :
    (liftM s : Decoder α).Costs n := by
  refine Costs.free (ofScan_reached s) fun bytes a rest hr => ?_
  have hrest := h bytes
  rw [ofScan_eq_ok.mp hr] at hrest
  exact Nat.le_of_eq (congrArg List.length hrest)

theorem Costs.scanExcept (x : Except WireError α) : (liftM (Scan.ofExcept x) : Decoder α).Costs n :=
  Costs.scan (P := fun _ _ => True) (Scan.Yields.ofExcept fun _ _ => trivial)

theorem reached_bind_of_ok {d : Decoder α} {f : α → Decoder β} {bytes mid : Bytes} {a : α}
    (h : (d bytes).result = .ok (a, mid)) :
    ((d >>= f) bytes).reached = (d bytes).reached ++ (f a mid).reached :=
  Outcome.reached_bind_of_ok h

theorem reached_bind_of_error {d : Decoder α} {f : α → Decoder β} {bytes : Bytes} {e : DecodeError}
    (h : (d bytes).result = .error e) : ((d >>= f) bytes).reached = (d bytes).reached :=
  Outcome.reached_bind_of_error h

/-- **The price of two steps is the price of each.** -/
theorem Costs.bind {d : Decoder α} {f : α → Decoder β} (hd : d.Costs n) (hf : ∀ a, (f a).Costs n) :
    (d >>= f).Costs n := by
  constructor
  · intro bytes b rest h
    obtain ⟨a, mid, h₁, h₂⟩ := bind_eq_ok h
    have hfirst := hd.answers bytes a mid h₁
    have hsecond := (hf a).answers mid b rest h₂
    rw [reached_bind_of_ok h₁, List.length_append]
    omega
  · intro bytes e h
    cases h₁ : (d bytes).result with
    | error e' =>
      rw [reached_bind_of_error h₁]
      exact hd.fails bytes e' h₁
    | ok p =>
      rw [bind_of_ok h₁] at h
      have hfirst := hd.answers bytes p.1 p.2 h₁
      have hsecond := (hf p.1).fails p.2 e h
      rw [reached_bind_of_ok h₁, List.length_append]
      omega

theorem Costs.spanned {d : Decoder α} (hd : d.Costs n) : d.spanned.Costs n := by
  constructor
  · intro bytes a rest h
    obtain ⟨p, mid, h₁, h₂⟩ := bind_eq_ok (f := fun p => fun rest =>
      (Pure.pure ((p, bytes.take (bytes.length - rest.length)), rest))) h
    cases h₂
    show (d bytes >>= _).reached.length + _ ≤ _
    rw [Outcome.reached_bind_of_ok h₁, Outcome.reached_pure, List.append_nil]
    exact hd.answers bytes p rest h₁
  · intro bytes e h
    have h' : (d bytes >>= fun p => (Pure.pure
        ((p.1, bytes.take (bytes.length - p.2.length)), p.2) : Outcome _ _)).result = .error e := h
    rw [Outcome.result_bind] at h'
    show (d bytes >>= _).reached.length ≤ _
    cases h₁ : (d bytes).result with
    | ok p =>
      rw [h₁] at h'
      cases h'
    | error e' =>
      rw [Outcome.reached_bind_of_error h₁]
      exact hd.fails bytes e' h₁

theorem Costs.times {step : σ → Decoder σ} (h : ∀ s, (step s).Costs n) (k : Nat) (s : σ) :
    (Decoder.times step k s).Costs n := by
  induction k generalizing s with
  | zero => exact .pure s
  | succ k ih => exact (h s).bind ih

theorem Costs.untilBreak {step : σ → Decoder σ} (h : ∀ s, (step s).Costs n) (turns : Nat) (s : σ) :
    (Decoder.untilBreak step turns s).Costs n := by
  induction turns generalizing s with
  | zero => exact .fail _
  | succ turns ih =>
    refine (Costs.ahead fun _ => rfl).bind fun b => ?_
    split
    · exact (Costs.scan (Scan.closing_yields _)).bind fun _ => .pure s
    · exact (h s).bind ih

theorem Costs.fold {step : σ → Decoder σ} (h : ∀ s, (step s).Costs n) (e : Pending) (s : σ) :
    (e.fold step s).Costs n := by
  cases e with
  | counted k => exact .times h k s
  | toBreak =>
    exact ⟨fun bytes => (Costs.untilBreak h (bytes.length + 1) s).answers bytes,
      fun bytes => (Costs.untilBreak h (bytes.length + 1) s).fails bytes⟩

theorem Costs.another (e : Pending) : e.another.Costs n := by
  cases e with
  | counted k => cases k <;> exact .pure _
  | toBreak =>
    refine (Costs.ahead fun _ => rfl).bind fun b => ?_
    split
    · exact (Costs.scan (Scan.closing_yields _)).bind fun _ => .pure _
    · exact .pure _

end Decoder

open Decoder

/-! ## 2. Readers without parts -/

section plain

variable (s : Shape) (r : Reading) {n : Nat}

theorem head_costs (context : String) : (liftM (Scan.head context) : Decoder Head).Costs n :=
  .scan (head_yields context)

theorem peekHead_costs (context : String) :
    (liftM (Scan.peek (Scan.head context)) : Decoder Head).Costs n :=
  .ahead (Scan.peek_rest _)

theorem skip_costs (depth : Nat) : (liftM (Scan.skip depth) : Decoder Unit).Costs n :=
  .scan (Scan.skip_yields depth)

theorem payload_costs (h : Head) (max : UInt64) (context : String) :
    (liftM (Scan.payload h max context) : Decoder Bytes).Costs n :=
    .scan (Scan.payload_yields h max context)

theorem openCollection_costs (m : Major) : (s.openCollection r m).Costs n := by
  refine (head_costs _).bind fun h => ?_
  split
  · exact .fail _
  · refine (Costs.ofExcept _).bind fun _ => ?_
    split
    · exact .pure _
    · exact (Costs.scanExcept _).bind fun k => .pure _

theorem readPayload_costs (m : Major) (h : Head) : (s.readPayload r m h).Costs n := by
  rw [Shape.readPayload]
  split
  · exact .fail _
  · refine (Costs.ofExcept _).bind fun _ => (payload_costs h _ _).bind fun payload => ?_
    exact (Costs.ofExcept _).bind fun _ => .pure payload

theorem readScalar_costs (p : Primitive) : (s.readScalar r p).Costs n := by
  refine (head_costs _).bind fun h => Costs.bind ?_ fun scalar => .pure _
  cases p with
  | bool => exact (Costs.ofExcept _).bind fun b => .pure _
  | null => exact (Costs.ofExcept _).bind fun _ => .pure _
  | uint => exact (Costs.ofExcept _).bind fun k => .pure _
  | int => exact .ofExcept _
  | bytes => exact (readPayload_costs s r .bytes h).bind fun payload => .pure _
  | embedded => exact (readPayload_costs s r .bytes h).bind fun payload => .pure _
  | text =>
    refine (readPayload_costs s r .text h).bind fun payload => ?_
    exact (Costs.ofExcept _).bind fun text => .pure _

theorem expectLiteral_costs (name : String) (max : UInt64) (key : FieldKey) (l : Literal) :
    (expectLiteral name max key l).Costs n := by
  refine (head_costs _).bind fun h => Costs.bind ?_ fun b => ?_
  · cases l with
    | int k => exact .pure _
    | bool b => exact .pure _
    | text t =>
      rw [matchesLiteral]
      split
      · exact (payload_costs h max name).bind fun payload => .pure _
      · exact .pure false
  · split
    · exact .pure ()
    · exact .fail _

theorem readKeyItem_costs : (readKeyItem r).Costs n := by
  rw [readKeyItem]
  refine (peekHead_costs _).bind fun h => ?_
  split
  · exact (head_costs _).bind fun _ => .pure _
  · exact (head_costs _).bind fun _ => .pure _
  · refine (head_costs _).bind fun h => (payload_costs h _ _).bind fun payload => ?_
    exact (Costs.ofExcept _).bind fun text => .pure _
  · exact (skip_costs _).bind fun _ => .pure _

theorem readConstructorIndex_costs (name : String) : (readConstructorIndex name).Costs n := by
  refine (head_costs _).bind fun h => ?_
  split
  · exact .fail _
  · dsimp only
    split
    · exact .pure _
    · split
      · refine (head_costs _).bind fun pair => ?_
        split
        · exact .fail _
        · refine (head_costs _).bind fun index => ?_
          split
          · exact .pure _
          · exact .fail _
      · exact .fail _

theorem readTagBefore_costs : s.readTagBefore.Costs n := by
  rw [Shape.readTagBefore]
  split
  · exact .pure false
  · refine (peekHead_costs _).bind fun h => ?_
    split
    · split
      · exact .fail _
      · exact .pure false
    · dsimp only
      split
      · exact .fail _
      · exact (head_costs _).bind fun _ => .pure true

end plain

/-! ## 3. Readers with parts -/

section parts

variable {s : Shape} {r : Reading} {n : Nat} (hpart : ∀ t ∈ s.partTypes, (r.part t).Costs n)
include hpart

theorem readSlot_costs {type : TypeExpr} (ht : type ∈ s.partTypes) (presence : Presence) :
    (readSlot r s.name type presence).Costs n := by
  rw [readSlot]
  split
  · refine (Costs.ahead (Scan.peek_rest _)).bind fun b => ?_
    split
    · exact (Costs.scan (Scan.byte_yields _)).bind fun _ => .pure none
    · exact (hpart type ht).bind fun v => .pure _
  · exact (hpart type ht).bind fun v => .pure _

theorem readByPosition_costs {fields : List Field}
    (hf : ∀ f ∈ fields, ∀ type presence, f.body = .value type presence → type ∈ s.partTypes)
    (e : Pending) : (readByPosition r s.name fields e).Costs n := by
  induction fields generalizing e with
  | nil => exact .pure _
  | cons f fs ih =>
    have ih := fun e => ih (fun f' hf' => hf f' (List.mem_cons_of_mem f hf')) e
    rw [readByPosition]
    refine (Costs.another e).bind fun p => ?_
    obtain ⟨more, e⟩ := p
    dsimp only
    split
    · split
      · exact (expectLiteral_costs _ _ f.key _).bind fun _ => ih e
      · rename_i type presence hb
        refine (readSlot_costs hpart (hf f List.mem_cons_self type presence hb) presence).bind ?_
        exact fun slot => (ih e).bind fun slots => .pure _
    · split
      · exact (ih e).bind fun slots => .pure _
      · exact .fail _

theorem readArray_costs : (s.readArray r).Costs n := by
  refine (openCollection_costs s r .array).bind fun e => ?_
  split
  · rename_i item hl
    refine Costs.bind (Costs.bind (Costs.fold (fun rev => ?_) e []) fun rev => .pure _)
      fun items => .pure _
    exact (hpart item (Shape.item_mem hl)).bind fun v => .pure _
  · rename_i fields hl
    refine Costs.bind ?_ fun slots => .pure _
    refine (readByPosition_costs hpart (fun f hf _ _ hb => Shape.field_mem hl hf hb) e).bind ?_
    rintro ⟨slots, e⟩
    refine Costs.bind (Costs.fold (fun k => (skip_costs _).bind fun _ => .pure _) e 0)
      fun extra => ?_
    split
    · exact .fail _
    · exact .pure slots
  · exact .fail _

theorem readKeyedEntry_costs {fields : List Field} (hl : s.layout = some (.fields fields))
    (found : Found) : (s.readKeyedEntry r fields found).Costs n := by
  refine (readKeyItem_costs r).bind fun key => ?_
  split
  · split
    · exact (skip_costs _).bind fun _ => .pure found
    · exact .fail _
  · rename_i f hf
    split
    · exact .fail _
    · split
      · exact (expectLiteral_costs _ _ f.key _).bind fun _ => .pure _
      · rename_i type presence hb
        have hmem := Shape.field_mem hl (List.mem_of_find?_eq_some hf) hb
        exact (hpart type hmem).bind fun v => .pure _

theorem readMap_costs : (s.readMap r).Costs n := by
  refine (openCollection_costs s r .map).bind fun e => ?_
  split
  · rename_i key value hl
    obtain ⟨hkey, hvalue⟩ := Shape.entry_mem hl
    refine Costs.bind (Costs.bind (Costs.fold (fun seen => ?_) e []) fun rev => .pure _)
      fun entries => .pure _
    refine (hpart key hkey).spanned.bind fun p => ?_
    dsimp only
    split
    · exact .fail _
    · exact (hpart value hvalue).bind fun v => .pure _
  · rename_i fields hl
    refine Costs.bind ?_ fun slots => .pure _
    refine (Costs.fold (readKeyedEntry_costs hpart hl) e []).bind fun found => ?_
    exact (Costs.ofExcept _).bind fun _ => .pure _
  · exact .fail _

theorem readConstructor_costs : (s.readConstructor r).Costs n := by
  refine (readConstructorIndex_costs s.name).bind fun index => ?_
  exact (Costs.ofExcept _).bind fun _ => (readArray_costs hpart).bind fun parts => .pure _

end parts

/-! ## 4. Unions -/

section unions

variable {s : Shape} {r : Reading} {price : TypeExpr → Nat}

/-- One candidate on its own. -/
theorem whole_costs {d : Decoder Value} {n : Nat} (hd : d.Costs n) (span : Bytes) :
    (d.whole span).reached.length ≤ n * span.length + n := by
  show (d span >>= _).reached.length ≤ _
  cases h : (d span).result with
  | error e =>
    rw [Outcome.reached_bind_of_error h]
    exact hd.fails span e h
  | ok p =>
    have hanswers := hd.answers span p.1 p.2 h
    have hlast : (if p.2.isEmpty then (pure p.1 : Outcome DecodeError Value)
        else Outcome.fail (.trailingBytes p.2.length)).reached = [] := by split <;> rfl
    rw [Outcome.reached_bind_of_ok h]
    dsimp only
    rw [hlast, List.append_nil]
    omega

/-- **The candidates decode the same bytes one after the other.** -/
theorem firstCandidate_costs (catalog : Catalog) (name : String) (span : Bytes)
    (failed : List (String × DecodeError)) {ts : List TypeExpr}
    (hpart : ∀ t ∈ ts, (r.part t).Costs (price t)) :
    (firstCandidate r catalog name span failed ts).reached.length ≤
      (ts.map price).sum * span.length + (ts.map price).sum := by
  induction ts generalizing failed with
  | nil => exact Nat.zero_le _
  | cons t ts ih =>
    obtain ⟨ht, hts⟩ := List.forall_mem_cons.mp hpart
    have hfirst := whole_costs ht span
    rw [List.map_cons, List.sum_cons, Nat.add_mul, firstCandidate]
    dsimp only
    split
    · dsimp only
      omega
    · dsimp only
      omega
    · rename_i e _ _
      have hothers := ih (failed ++ [(catalog.printName t, e)]) hts
      rw [List.length_append]
      omega

theorem readUnion_eq (s : Shape) (r : Reading) (catalog : Catalog) : s.readUnion r catalog =
    (liftM (Scan.item r.depth) : Decoder Bytes) >>= s.chosen r catalog := by
  rw [Shape.readUnion]
  congr 1
  funext span rest
  have hrun : ∀ x : Outcome DecodeError Value, ((x >>= fun v => pure (v, rest)) >>=
      fun p => pure (s.unionParts p.1, p.2)) =
      x >>= fun v => (pure (s.unionParts v, rest) : Outcome DecodeError (Parts × Bytes)) := by
    intro x
    simp only [Outcome.bind_assoc, Outcome.pure_bind]
  exact hrun _

theorem chosen_reached (s : Shape) (r : Reading) (catalog : Catalog) (span rest : Bytes) :
    (s.chosen r catalog span rest).reached =
      (firstCandidate r catalog s.name span [] s.candidates).reached := by
  rw [Shape.chosen, Outcome.reached_bind]
  cases (firstCandidate r catalog s.name span [] s.candidates).result with
  | ok v => exact List.append_nil _
  | error e => exact List.append_nil _

/-- **A union pays for its candidates together.** An item has at least one byte, so a candidate that
    fails on it costs no more than twice its price for each byte of it. -/
theorem readUnion_costs (catalog : Catalog)
    (hpart : ∀ t ∈ s.candidates, (r.part t).Costs (price t)) :
    (s.readUnion r catalog).Costs (2 * (s.candidates.map price).sum) := by
  have htrials := fun span => firstCandidate_costs catalog s.name span [] hpart
  generalize (s.candidates.map price).sum = n at htrials ⊢
  -- the bytes of the item pay, those behind it keep what they are worth
  have hpaid : ∀ bytes span mid,
      ((liftM (Scan.item r.depth) : Decoder Bytes) bytes).result = .ok (span, mid) →
      (s.readUnion r catalog bytes).reached.length + 2 * n * mid.length ≤ 2 * n * bytes.length := by
    intro bytes span mid h
    obtain ⟨u, rfl, _, rfl, hi⟩ := Scan.item_yields r.depth _ span mid (ofScan_eq_ok.mp h)
    have hle := htrials span
    have hone : n ≤ n * span.length :=
      Nat.le_mul_of_pos_right n (List.length_pos_iff.mpr hi.ne_nil)
    rw [readUnion_eq, reached_bind_of_ok h, ofScan_reached, List.nil_append, chosen_reached,
      List.length_append, Nat.mul_add, Nat.mul_assoc 2 n span.length]
    omega
  constructor
  · intro bytes parts rest h
    rw [readUnion_eq] at h
    obtain ⟨span, mid, h₁, h₂⟩ := bind_eq_ok h
    rw [Shape.chosen, Outcome.result_bind] at h₂
    cases hf : (firstCandidate r catalog s.name span [] s.candidates).result with
    | error e =>
      rw [hf] at h₂
      cases h₂
    | ok v =>
      rw [hf] at h₂
      cases h₂
      exact hpaid bytes span rest h₁
  · intro bytes e _
    cases h₁ : ((liftM (Scan.item r.depth) : Decoder Bytes) bytes).result with
    | error e' =>
      rw [readUnion_eq, reached_bind_of_error h₁, ofScan_reached]
      exact Nat.zero_le _
    | ok p =>
      have h := hpaid bytes p.1 p.2 h₁
      omega

end unions

/-! ## 5. Values -/

/-- What a byte of an item of a shape is worth. The parts of a collection lie in different bytes,
    those of a union in the same. -/
def Shape.price (s : Shape) (price : TypeExpr → Nat) : Nat :=
  max ((s.partTypes.map price).foldr max 0) (2 * (s.candidates.map price).sum)

/-- The price of a type: how many values may be begun for each byte, with that nesting left. -/
def Codec.price (c : Codec) : Nat → TypeExpr → Nat
  | 0, _ => 1
  | depth + 1, t =>
    match c.resolve t with
    | .error _ => 1
    | .ok s => s.price (c.price depth) + 1

/-- A higher price pays, too, where no bytes are added. -/
theorem Decoder.Costs.mono {α : Type} {d : Decoder α} {n m : Nat} (hd : d.Costs n) (hle : n ≤ m)
    (hrest : ∀ bytes a rest, (d bytes).result = .ok (a, rest) → rest.length ≤ bytes.length) :
    d.Costs m := by
  obtain ⟨k, rfl⟩ := Nat.exists_eq_add_of_le hle
  constructor
  · intro bytes a rest h
    have hn := hd.answers bytes a rest h
    have hk := Nat.mul_le_mul_left k (hrest bytes a rest h)
    rw [Nat.add_mul, Nat.add_mul]
    omega
  · intro bytes e h
    have hn := hd.fails bytes e h
    rw [Nat.add_mul]
    omega

theorem le_foldr_max {a : Nat} {as : List Nat} (h : a ∈ as) : a ≤ as.foldr max 0 := by
  induction as with
  | nil => cases h
  | cons b as ih =>
    rw [List.foldr_cons]
    rcases List.mem_cons.mp h with rfl | h
    · exact Nat.le_max_left _ _
    · exact Nat.le_trans (ih h) (Nat.le_max_right _ _)

theorem Reading.Sound.rest_le {r : Reading} (hr : r.Sound) (t : TypeExpr) (bytes : Bytes)
    (v : Value) (rest : Bytes) (h : (r.part t bytes).result = .ok (v, rest)) :
    rest.length ≤ bytes.length := by
  obtain ⟨u, rfl, _⟩ := hr t bytes v rest h
  rw [List.length_append]
  exact Nat.le_add_left _ _

theorem readKept_costs {s : Shape} {r : Reading} {price : TypeExpr → Nat} (hr : r.Sound)
    (catalog : Catalog) (hpart : ∀ t ∈ s.partTypes, (r.part t).Costs (price t)) :
    (s.readKept r catalog).Costs (s.price price) := by
  have hparts : ∀ t ∈ s.partTypes, (r.part t).Costs (s.price price) := fun t ht =>
    (hpart t ht).mono (Nat.le_trans (le_foldr_max (List.mem_map_of_mem ht)) (Nat.le_max_left _ _))
      (hr.rest_le t)
  have hkind : (s.readKind r catalog).Costs (s.price price) := by
    rw [Shape.readKind]
    split
    · exact readScalar_costs s r _
    · exact readArray_costs hparts
    · exact readMap_costs hparts
    · exact readConstructor_costs hparts
    · refine (readUnion_costs catalog fun t ht => hpart t (Shape.candidate_mem ht)).mono
        (Nat.le_max_right _ _) fun bytes parts rest h => ?_
      obtain ⟨u, rfl, _⟩ := readUnion_yields s r catalog bytes parts rest h
      rw [List.length_append]
      exact Nat.le_add_left _ _
  have hitem : (s.readItem r catalog).Costs (s.price price) :=
    (readTagBefore_costs s).bind fun tagged => hkind.bind fun parts => .pure _
  rw [Shape.readKept]
  split
  · exact hitem.spanned.bind fun p => .pure _
  · exact hitem

theorem Codec.shape_reached (c : Codec) (t : TypeExpr) (bytes : Bytes) :
    (c.shape t bytes).reached = [t] := by
  show (c.reach DecodeError.config t >>= fun s => pure (s, bytes)).reached = [t]
  rw [Outcome.reached_bind, reach]
  cases (c.resolve t).mapError DecodeError.config with
  | ok s => rfl
  | error e => rfl

theorem Codec.read_succ (c : Codec) (o : DecodeOptions) (depth : Nat) (t : TypeExpr) :
    c.read o (depth + 1) t = c.shape t >>= fun s =>
      s.readKept (c.reading o depth) c.catalog >>= fun parts =>
        Decoder.ofExcept (c.catalog.construct t s parts) := rfl

/-- **A read begins no more values than its bytes pay for.** The induction is on the nesting that is
    left; the read itself is paid for by the one byte more that each is worth. -/
theorem Codec.read_costs (c : Codec) (o : DecodeOptions) (depth : Nat) (t : TypeExpr) :
    (c.read o depth t).Costs (c.price depth t) := by
  induction depth generalizing t with
  | zero =>
    constructor
    · intro bytes v rest h
      obtain ⟨s, mid, _, h₂⟩ := bind_eq_ok h
      cases h₂
    · intro bytes e _
      have hreached : (c.read o 0 t bytes).reached = [t] := by
        rw [read, bind_apply, Outcome.reached_bind, shape_reached]
        cases (c.shape t bytes).result <;> rfl
      rw [hreached]
      exact Nat.le_add_left 1 _
  | succ depth ih =>
    rw [read_succ]
    cases hs : c.resolve t with
    | error f =>
      have hno : ∀ bytes s mid, (c.shape t bytes).result ≠ .ok (s, mid) := by
        intro bytes s mid h
        obtain ⟨_, _, _, _, hs'⟩ := shape_yields c t bytes s mid h
        rw [hs] at hs'
        cases hs'
      constructor
      · intro bytes v rest h
        obtain ⟨s, mid, h₁, _⟩ := bind_eq_ok h
        exact absurd h₁ (hno bytes s mid)
      · intro bytes e _
        cases h₁ : (c.shape t bytes).result with
        | ok p => exact absurd h₁ (hno bytes p.1 p.2)
        | error e' =>
          rw [reached_bind_of_error h₁, shape_reached, price, hs]
          exact Nat.le_add_left 1 _
    | ok s =>
      have hbody := (readKept_costs (c.sound o depth) c.catalog (s := s) fun t' _ => ih t').bind
        fun parts => Costs.ofExcept (c.catalog.construct t s parts)
      have hshape : ∀ bytes, (c.shape t bytes).result = .ok (s, bytes) := fun bytes =>
        shape_reads hs bytes
      rw [show c.price (depth + 1) t = s.price (c.price depth) + 1 by rw [price, hs]]
      constructor
      · intro bytes v rest h
        obtain ⟨u, hu, _, hi, _⟩ := c.sound o (depth + 1) t bytes v rest h
        have hpos := List.length_pos_iff.mpr hi.ne_nil
        have hlength : bytes.length = u.length + rest.length := by rw [hu, List.length_append]
        rw [bind_of_ok (hshape bytes)] at h
        have hpaid := hbody.answers bytes v rest h
        rw [reached_bind_of_ok (hshape bytes), shape_reached, List.length_append,
          Nat.add_mul, Nat.add_mul, Nat.one_mul, Nat.one_mul, List.length_singleton]
        omega
      · intro bytes e h
        rw [bind_of_ok (hshape bytes)] at h
        have hpaid := hbody.fails bytes e h
        rw [reached_bind_of_ok (hshape bytes), shape_reached, List.length_append,
          Nat.add_mul, Nat.one_mul, List.length_singleton]
        omega

end CborSchema
