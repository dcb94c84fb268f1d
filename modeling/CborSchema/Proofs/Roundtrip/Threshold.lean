import CborSchema.Proofs.Decode.Inside
import CborSchema.Proofs.Encode.Related
import CborSchema.Proofs.Roundtrip.Values
import Mathlib.Order.Lattice.Nat

/-!
# How deep a run has to go

Whatever limit on the nesting a run has, it does the same until the limit is reached. So the least
limit under which a run answers is the length of the longest chain of values that it goes through,
and under less it is refused for its nesting and for nothing else.

* `Outcome.SameUnless` -- two runs that answer the same unless one is refused for one of some
  errors; steps preserve it, those of readers and those of writers;
* `Value.Chain` -- values in one another, down to one that hides its parts;
* `Chain.le_of_written`, `written_or_tooDeep` -- the chains of a value that is written;
* `Catalog.NestsIn` -- the chains of conversions in the bytes of a type, whatever reads them;
* `NestsIn.le_of_read`, `read_of_nestsIn`, `read_or_tooDeep` -- the chains of a value that is read,
  `NestsIn.chain`: which the value has itself if it kept all that was read;
* `Catalog.maxDepth_is_exact` -- **the limit is exact, for writing and for reading.**
-/

namespace CborSchema

open Decoder

/-! ## 1. Runs that are the same unless refused -/

section outcomes

variable {ε α β : Type} {E : ε → Prop}

/-- Where the second run answers, the first one gives the same answer or is refused for one of these
    errors. -/
def Outcome.SameUnless (E : ε → Prop) (x x' : Outcome ε α) : Prop :=
  ∀ a, x'.result = .ok a → x.result = .ok a ∨ ∃ e, E e ∧ x.result = .error e

theorem Outcome.SameUnless.bind {x x' : Outcome ε α} {f f' : α → Outcome ε β}
    (hx : x.SameUnless E x') (hf : ∀ a, x.result = .ok a → (f a).SameUnless E (f' a)) :
    (x >>= f).SameUnless E (x' >>= f') := by
  intro b hb
  obtain ⟨a, ha', hb⟩ := Outcome.bind_eq_ok.mp hb
  rcases hx a ha' with ha | ⟨e, he, hx⟩
  · rw [Outcome.result_bind, ha]
    exact hf a ha b hb
  · rw [Outcome.result_bind, hx]
    exact .inr ⟨e, he, rfl⟩

theorem sameUnless_readers (E : DecodeError → Prop) :
    OutcomeRelation fun _ x x' => x.SameUnless E x' where
  ofExcept _ := fun _ h => .inl h
  bind hx hf := hx.bind fun a _ => hf a

theorem sameUnless_writers (E : EncodeError → Prop) :
    WriterRelation fun _ x x' => x.SameUnless E x' where
  ofExcept _ := fun _ h => .inl h
  bind hx hf := hx.bind hf

end outcomes

/-! ## 2. Chains -/

/-- A chain of so many values in one another, down from a value. One that hides its parts ends
    it. -/
inductive Value.Chain (hides : Value → Prop) : Value → Nat → Prop where
  | one {v : Value} : Chain hides v 1
  | inside {v z : Value} {k : Nat} (hv : ¬ hides v) (hz : z ∈ v.content.parts)
      (h : Chain hides z k) : Chain hides v (k + 1)

/-- Of numbers that start with one and are bounded one is the greatest. -/
theorem exists_isGreatest {P : Nat → Prop} (hone : P 1) {n : Nat} (hle : ∀ k, P k → k ≤ n) :
    ∃ h, IsGreatest {k | P k} h :=
  ⟨sSup {k | P k}, Nat.sSup_mem ⟨1, hone⟩ ⟨n, hle⟩, fun _ hk => le_csSup ⟨n, hle⟩ hk⟩

/-! ## 3. Values written -/

section writing

variable {c : Catalog} {o o' : EncodeOptions} {m n : Nat} {v : Value} {b : Bytes}

/-- **What is written leaves room for every chain**, by induction on the chain. -/
theorem Value.Chain.le_of_written {k : Nat} (h : v.Chain c.Replays k)
    (hb : c.codec.WrittenTo o n v b) : k ≤ n := by
  induction h generalizing n b with
  | one =>
    obtain ⟨m, rfl, -⟩ := Codec.exists_writeAs hb
    omega
  | inside hv hz _ ih =>
    obtain ⟨m, rfl, hat⟩ := Codec.exists_writeAs hb
    rcases hat.cut with ⟨s, hs, hp, hraw⟩ | ⟨_, hcut⟩
    · exact absurd ⟨⟨s, hs, hp⟩, by simp [hraw]⟩ hv
    · obtain ⟨x, hx⟩ := hcut.exists_of_mem hz
      exact Nat.succ_le_succ (ih hx.writes)

/-- **What is written with some nesting left is written the same with any other, unless that is too
    little**: then there is a chain that is longer. By induction on the nesting that is left
    there. -/
theorem written_or_tooDeep (ho : o'.indefinite = o.indefinite) (hb : c.codec.WrittenTo o m v b) :
    c.codec.WrittenTo o' n v b ∨
      (c.codec.write o' n v.type v).result = .error (.tooDeep o'.maxDepth) ∧
        ∃ k, n < k ∧ v.Chain c.Replays k := by
  induction n generalizing m v b with
  | zero =>
    refine .inr ⟨?_, 1, Nat.one_pos, .one⟩
    have hs : ∃ s, c.codec.resolve v.type = .ok s := by
      obtain ⟨m, rfl, hat⟩ := Codec.exists_writeAs hb
      cases hat with
      | replayed hs _ _ _ => exact ⟨_, hs⟩
      | taken hs _ _ _ => exact ⟨_, hs⟩
    obtain ⟨s, hs⟩ := hs
    rw [Codec.write, Outcome.result_bind, Codec.reach, hs]
    rfl
  | succ n ih =>
    have hsound := c.codec.writing_sound
    obtain ⟨m, rfl, hat⟩ := Codec.exists_writeAs hb
    cases hat with
    | replayed hs hp _ hr => exact .inl (Codec.write_eq_ok.mpr (.replayed hs hp rfl hr))
    | @taken s p u hs hr hp hk =>
      -- a refusal of the item is a refusal of a part, which has a chain that is too long
      let E : EncodeError → Prop := fun e => e = .tooDeep o'.maxDepth ∧
        ∃ k, n < k ∧ ∃ z ∈ v.content.parts, z.Chain c.Replays k
      have hparts : Writing.Related (fun _ x x' => x.SameUnless E x') p (c.codec.writing o' n)
          (c.codec.writing o m) := by
        refine ⟨ho, fun t z hz x hx => ?_⟩
        obtain rfl := hsound o m t z x hx
        rw [pieces_parts hp] at hz
        rcases ih hx with h | ⟨he, k, hlt, hchain⟩
        · exact .inl h
        · exact .inr ⟨_, ⟨rfl, k, hlt, z, hz, hchain⟩, he⟩
      have hitem := (Codec.writePieces_eq_ok (hsound o m)).mpr ⟨u, hk, rfl⟩
      rcases writePieces_related (sameUnless_writers E) hparts _ hitem with
        h | ⟨e, ⟨rfl, k, hlt, z, hz, hchain⟩, he⟩
      · obtain ⟨u', hk', hu'⟩ := (Codec.writePieces_eq_ok (hsound o' n)).mp h
        exact .inl (Codec.write_eq_ok.mpr (hu' ▸ .taken hs hr hp hk'))
      · refine .inr ⟨(Codec.write_of_pieces hs hr hp).trans he, k + 1, Nat.succ_lt_succ hlt, ?_⟩
        refine .inside ?_ hz hchain
        rintro ⟨⟨s', hs', hraw⟩, hnone⟩
        obtain rfl := Except.ok.inj (hs.symm.trans hs')
        exact hnone (hr hraw)

/-- **A value is written under exactly the limits that its longest chain leaves room for.** -/
theorem encode_threshold (hb : (c.codec.encode v o).result = .ok b) :
    ∃ h, IsGreatest {k | v.Chain c.Replays k} h ∧ ∀ D,
      (h ≤ D → (c.codec.encode v { o with maxDepth := D }).result = .ok b) ∧
      (D < h → (c.codec.encode v { o with maxDepth := D }).result = .error (.tooDeep D)) := by
  have hb : c.codec.WrittenTo o o.maxDepth v b := hb
  obtain ⟨h, hmem, hgreatest⟩ := exists_isGreatest Value.Chain.one fun k hk => hk.le_of_written hb
  refine ⟨h, ⟨hmem, hgreatest⟩, fun D => ?_⟩
  have hsame : { o with maxDepth := D }.indefinite = o.indefinite := rfl
  have hrun := written_or_tooDeep (n := D) hsame hb
  refine ⟨fun hle => ?_, fun hlt => ?_⟩
  · refine hrun.resolve_right fun ⟨_, k, hlt, hchain⟩ => ?_
    exact absurd (hgreatest hchain) (by omega)
  · refine (hrun.resolve_left fun hb' => ?_).1
    exact absurd (hmem.le_of_written hb') (by omega)

end writing

/-! ## 4. Values read -/

section reading

/-- A chain of so many conversions in one another, where a type is read off bytes. -/
inductive Catalog.NestsIn (c : Catalog) : TypeExpr → Bytes → Nat → Prop where
  | one {t : TypeExpr} {u : Bytes} : NestsIn c t u 1
  | inside {t t' : TypeExpr} {u x : Bytes} {s : Shape} {k : Nat} (hs : c.resolve t = .ok s)
      (hx : s.Converts u t' x) (h : NestsIn c t' x k) : NestsIn c t u (k + 1)

/-- All types below a type resolve, none of them as a union, and none passes over items. -/
def Catalog.Strict (c : Catalog) (t : TypeExpr) : Prop :=
  ∀ u, c.Reaches t u → ∃ s, c.resolve u = .ok s ∧ s.kind ≠ .union ∧ s.extensible = false

variable {c : Catalog} {o o' : DecodeOptions} {root t : TypeExpr} {m n : Nat} {u : Bytes}
  {v : Value}

theorem DecodeOptions.SameLengths.within (ho : o.SameLengths o') : o.LengthsWithin o' :=
  ⟨(congrArg UInt64.toNat ho.collection).le, (congrArg UInt64.toNat ho.string).le⟩

/-- What is read of a strict type is read by its shape. -/
theorem Catalog.Strict.readAt (hc : c.Strict root) (ht : c.Reaches root t)
    (h : (c.codec.read o n t).Reads u v) : ∃ m s p, n = m + 1 ∧ c.resolve t = .ok s ∧
      s.check t = .ok () ∧ s.kind ≠ .union ∧ s.extensible = false ∧
      s.KeptAt (c.codec.reading o m) p u ∧ c.construct t s p = .ok v := by
  obtain ⟨s, hs, hk, he⟩ := hc t ht
  obtain ⟨m, rfl, hat⟩ := Codec.exists_readAt h
  obtain ⟨p, hkept, hv⟩ := hat.keptAt hs
  exact ⟨m, s, p, rfl, hs, (resolve_check hs).1, hk, he, hkept, hv⟩

/-- **What is read leaves room for every chain**, by induction on the chain. -/
theorem Catalog.NestsIn.le_of_read (hc : c.Strict root) (ht : c.Reaches root t) {k : Nat}
    (h : c.NestsIn t u k) (hread : (c.codec.read o n t).Reads u v) : k ≤ n := by
  induction h generalizing n v with
  | one =>
    obtain ⟨m, _, _, rfl, _⟩ := hc.readAt ht hread
    omega
  | inside hs hx _ ih =>
    obtain ⟨m, s, p, rfl, hs', hcheck, hk, -, hkept, -⟩ := hc.readAt ht hread
    obtain rfl := Except.ok.inj (hs.symm.trans hs')
    obtain ⟨z, -, hz⟩ := hkept.converts hcheck hk hx
    exact Nat.succ_le_succ (ih (.part ht hs hx.mem) hz.reads)

/-- **What is read is read with any nesting left that has room for its chains**, by induction on the
    nesting with which it was read. -/
theorem read_of_nestsIn (hc : c.Strict root) (ht : c.Reaches root t) (ho : o.LengthsWithin o')
    (hread : (c.codec.read o m t).Reads u v) (hroom : ∀ k, c.NestsIn t u k → k ≤ n) :
    (c.codec.read o' n t).Reads u v := by
  induction m generalizing n t u v with
  | zero => exact absurd hread Codec.not_reads_zero
  | succ m ih =>
    obtain ⟨_, s, p, hm, hs, hcheck, hk, he, hkept, hv⟩ := hc.readAt ht hread
    obtain rfl := Nat.succ.inj hm
    obtain ⟨n, rfl⟩ := Nat.exists_eq_add_of_le' (hroom 1 .one)
    refine Codec.read_reads (.mk hs (hkept.reread hcheck hk he ho fun t' x z hx hz => ?_) hv)
    refine ⟨ih (.part ht hs hx.mem) hz.reads fun k hk => ?_, hz.item, hz.type⟩
    exact Nat.le_of_succ_le_succ (hroom _ (.inside hs hx hk))

/-- **What is read with some nesting left is read the same with any other, unless that is too
    little**, by induction on the nesting that is left there. -/
theorem read_or_tooDeep (hc : c.Strict root) (ht : c.Reaches root t) (ho : o.SameLengths o')
    (hread : (c.codec.read o m t).Reads u v) (rest : Bytes) :
    (c.codec.read o' n t (u ++ rest)).result = .ok (v, rest) ∨
      (c.codec.read o' n t (u ++ rest)).result = .error (.wire (.tooDeep o'.maxDepth)) := by
  induction n generalizing m t u v rest with
  | zero =>
    obtain ⟨_, s, _, _, hs, _⟩ := hc.readAt ht hread
    refine .inr ?_
    have hshape : (c.codec.shape t (u ++ rest)).result = .ok (s, u ++ rest) :=
      Codec.shape_reads (c := c.codec) hs (u ++ rest)
    exact bind_of_ok hshape
  | succ n ih =>
    obtain ⟨m, s, p, rfl, hs, hcheck, hk, he, hkept, hv⟩ := hc.readAt ht hread
    let E : DecodeError → Prop := (· = .wire (.tooDeep o'.maxDepth))
    -- the parts as they were read, and around them the nesting that is left now
    let r : Reading := { c.codec.reading o' n with part := c.codec.read o m }
    have hkept' : s.KeptAt r p u :=
      hkept.reread hcheck hk he ho.within fun _ _ _ _ hz => ⟨hz.reads, hz.item, hz.type⟩
    have hr : Reading.Related (fun _ x x' => x.SameUnless E x') s (c.codec.reading o' n) r := by
      refine ⟨rfl, rfl, rfl, fun t' ht' bytes q hq => ?_⟩
      obtain ⟨x, rfl, hx, -⟩ := c.codec.sound o m t' bytes q.1 q.2 hq
      exact (ih (.part ht hs ht') hx q.2).imp_right fun h => ⟨_, rfl, h⟩
    have hrelated : Decoder.Related (fun _ x x' => x.SameUnless E x')
        (s.readKept (c.codec.reading o' n) c) (s.readKept r c) :=
      readKept_related (sameUnless_readers E) hr fun h => absurd h hk
    have hitem := (sameUnless_readers E).andThen hrelated fun parts =>
      (sameUnless_readers E).check (construct_plain c parts t s)
    have hbuilt : (s.readKept r c >>= fun parts =>
        Decoder.ofExcept (c.construct t s parts)).Reads u v :=
      Reads.bind_nil (readKept_reads hkept') (Reads.ofExcept hv)
    rw [Codec.read_of_resolves hs]
    exact (hitem (u ++ rest) _ (hbuilt rest)).imp_right fun ⟨e, he, h⟩ => he ▸ h

/-- **Where no value left a slot, each chain of conversions is one of values.** -/
theorem Catalog.NestsIn.chain (hc : c.Strict root) (ht : c.Reaches root t) {k : Nat}
    (h : c.NestsIn t u k) (hread : (c.codec.read o n t).Reads u v)
    (hwhole : ∀ path y, v.at? path = some y → y.notes.untaken = 0) :
    v.Chain (fun _ => False) k := by
  induction h generalizing n v with
  | one => exact .one
  | inside hs hx _ ih =>
    obtain ⟨m, s, p, rfl, hs', hcheck, hk, -, hkept, hv⟩ := hc.readAt ht hread
    obtain rfl := Except.ok.inj (hs.symm.trans hs')
    obtain ⟨hown, hbelow⟩ := Value.forall_at.mp hwhole
    obtain ⟨z, hz, hat⟩ := hkept.converts hcheck hk hx
    have hz := ((construct_built hv).whole hown).mem_iff.mp hz
    exact .inside not_false hz (ih (.part ht hs hx.mem) hat.reads (hbelow z hz))

/-- A chain of values is no longer than the nesting with which the value is read. -/
theorem Value.Chain.le_of_read {hides : Value → Prop} {k : Nat} (h : v.Chain hides k)
    (hread : c.codec.ReadFrom o n v u) : k ≤ n := by
  induction h generalizing n u with
  | one =>
    obtain ⟨m, rfl, -⟩ := cut_of_read hread
    omega
  | inside _ hz _ ih =>
    obtain ⟨m, rfl, hcut⟩ := cut_of_read hread
    obtain ⟨x, hx⟩ := hcut.exists_of_mem hz
    exact Nat.succ_le_succ (ih hx)

/-- **Bytes are read under exactly the limits that their longest chain of conversions leaves room
    for.** -/
theorem decode_threshold (hc : c.Strict t) {b : Bytes}
    (hb : (c.codec.decode t b o).result = .ok v) :
    ∃ used h, used <+: b ∧ (c.codec.read o o.maxDepth t).Reads used v ∧
      IsGreatest {k | c.NestsIn t used k} h ∧
        ((∀ path y, v.at? path = some y → y.notes.untaken = 0) →
        IsGreatest {k | v.Chain (fun _ => False) k} h) ∧ ∀ D,
      (h ≤ D → (c.codec.decode t b { o with maxDepth := D }).result = .ok v) ∧
      (D < h → (c.codec.decode t b { o with maxDepth := D }).result =
        .error (.wire (.tooDeep D))) := by
  obtain ⟨used, rest, rfl, htrailing, hread⟩ := Codec.decode_eq_ok.mp hb
  obtain ⟨h, hmem, hgreatest⟩ := exists_isGreatest Catalog.NestsIn.one
    fun k hk => hk.le_of_read hc .refl hread
  have hlengths : ∀ D, o.SameLengths { o with maxDepth := D } := fun D => ⟨rfl, rfl⟩
  have henough : ∀ D, h ≤ D → (c.codec.read { o with maxDepth := D } D t).Reads used v :=
    fun D hle => read_of_nestsIn hc .refl (hlengths D).within hread fun k hk =>
      (hgreatest hk).trans hle
  refine ⟨used, h, List.prefix_append used rest, hread, ⟨hmem, hgreatest⟩, fun hwhole => ⟨?_, ?_⟩,
    fun D => ⟨fun hle => ?_, fun hlt => ?_⟩⟩
  · exact hmem.chain hc .refl hread hwhole
  · intro k hk
    have htype : v.type = t :=
      (c.codec.read_partAt _ _ t).whole (henough h (Nat.le_refl h)).whole |>.2.type
    subst htype
    exact hk.le_of_read (henough h (Nat.le_refl h))
  · exact Codec.decode_eq_ok.mpr ⟨used, rest, rfl, htrailing, henough D hle⟩
  · rw [Codec.decode_finish]
    rcases read_or_tooDeep (n := D) hc .refl (hlengths D) hread rest with hok | hdeep
    · obtain ⟨x, hx, hx', -⟩ := c.codec.sound _ D t _ v rest hok
      obtain rfl := List.append_cancel_right hx
      exact absurd (hmem.le_of_read hc .refl hx') (by omega)
    · rw [hdeep]
      rfl

end reading

/-! ## 5. The limit -/

/-- **The limit on the nesting is exact.**

    * Let a value encode under some limit, and let `h` be the length of its longest chain of values
      in one another, where one that is written as the bytes it kept hides what is in it. It encodes
      to the same bytes under every limit from `h` on, and is refused for its nesting under every
      limit below.
    * Let all types below a type resolve, none of them as a union, and none pass over items; let
      bytes decode to a value under some limit, and let `h` be the length of the longest chain of
      conversions in those that it was read off, which is that of values in the value unless one
      left a slot of its item untaken. The bytes decode to the same value under every limit from `h`
      on, and are refused for their nesting under every limit below. -/
theorem Catalog.maxDepth_is_exact (c : Catalog) :
    (∀ (v : Value) (o : EncodeOptions) (b : Bytes), (c.codec.encode v o).result = .ok b →
      ∃ h, IsGreatest {k | v.Chain c.Replays k} h ∧ ∀ D,
        (h ≤ D → (c.codec.encode v { o with maxDepth := D }).result = .ok b) ∧
        (D < h → (c.codec.encode v { o with maxDepth := D }).result = .error (.tooDeep D))) ∧
    ∀ (t : TypeExpr) (o : DecodeOptions) (b : Bytes) (v : Value), c.Strict t →
      (c.codec.decode t b o).result = .ok v →
      ∃ used h, used <+: b ∧ (c.codec.read o o.maxDepth t).Reads used v ∧
        IsGreatest {k | c.NestsIn t used k} h ∧
        ((∀ path y, v.at? path = some y → y.notes.untaken = 0) →
          IsGreatest {k | v.Chain (fun _ => False) k} h) ∧ ∀ D,
        (h ≤ D → (c.codec.decode t b { o with maxDepth := D }).result = .ok v) ∧
        (D < h → (c.codec.decode t b { o with maxDepth := D }).result =
          .error (.wire (.tooDeep D))) :=
  ⟨fun _ _ _ hb => encode_threshold hb, fun _ _ _ _ hc hb => decode_threshold hc hb⟩

/-- A list of one list, which keeps its bytes: three values are read, and the innermost is hidden
    when the list is written. -/
theorem Catalog.kept_list_takes_three_to_read_and_two_to_write :
    let c : Catalog := {
      declared := fun _ => { schema := (Schema.list.withItems .uint64).keepingRaw }
      printName := fun _ => "kept" }
    let t : TypeExpr := .list (.named "kept")
    let b : Bytes := [0x81, 0x81, 0x05]
    let v : Value := .ofItems (.named "kept") [.node (.named "kept")
      (.items [.ofScalar .uint64 (.uint 5)]) { raw := some [0x81, 0x05] }]
    c.Strict t ∧ (c.codec.decode t b).result = .ok v ∧ (c.codec.encode v).result = .ok b ∧
      IsGreatest {k | v.Chain c.Replays k} 2 ∧ IsGreatest {k | v.Chain (fun _ => False) k} 3 ∧
      (c.codec.encode v { maxDepth := 1 }).result = .error (.tooDeep 1) ∧
      (c.codec.decode t b { maxDepth := 2 }).result = .error (.wire (.tooDeep 2)) := by
  intro c t b v
  have hdecode : (c.codec.decode t b).result = .ok v := by cbv
  have hencode : (c.codec.encode v).result = .ok b := by cbv
  have hread : (c.codec.decode t b { maxDepth := 3 }).result = .ok v := by cbv
  have hwritten : (c.codec.encode v { maxDepth := 2 }).result = .ok b := by cbv
  have hstrict : c.Strict t := by
    have hshapes : ∀ u ∈ [t, .named "kept", .uint64], ∃ s, c.resolve u = .ok s ∧
        (s.kind ≠ .union ∧ s.extensible = false) ∧
        ∀ u' ∈ s.partTypes, u' ∈ [t, .named "kept", .uint64] := by
      refine List.forall_mem_cons.mpr ⟨⟨_, rfl, by decide, by decide⟩, ?_⟩
      refine List.forall_mem_cons.mpr ⟨⟨_, rfl, by decide, by decide⟩, ?_⟩
      exact List.forall_mem_cons.mpr ⟨⟨_, rfl, by decide, by decide⟩, by simp⟩
    intro u hu
    have hmem := hu.mem_of_closed List.mem_cons_self fun u hu => by
      obtain ⟨s, hs, _, hparts⟩ := hshapes u hu
      exact ⟨s, hs, hparts⟩
    obtain ⟨s, hs, hk, _⟩ := hshapes u hmem
    exact ⟨s, hs, hk⟩
  have htaken : ∀ path y, v.at? path = some y → y.notes.untaken = 0 := by
    refine Value.forall_at.mpr ⟨rfl, List.forall_mem_singleton.mpr ?_⟩
    refine Value.forall_at.mpr ⟨rfl, List.forall_mem_singleton.mpr ?_⟩
    exact Value.forall_at.mpr ⟨rfl, List.forall_mem_nil _⟩
  have hlist : ¬ c.Replays v := fun h => h.2 rfl
  obtain ⟨h, hlongest, hencoded⟩ := c.maxDepth_is_exact.1 v {} b hencode
  obtain ⟨_, h', _, _, _, hchain, hdecoded⟩ := c.maxDepth_is_exact.2 t {} b v hstrict hdecode
  have hlongest' := hchain htaken
  -- two chains that the value has, and a limit under which each run answers
  obtain rfl : h = 2 := by
    refine Nat.le_antisymm (Nat.le_of_not_lt fun hlt => ?_) (hlongest.2 ?_)
    · cases hwritten.symm.trans ((hencoded 2).2 hlt)
    · exact .inside hlist List.mem_cons_self .one
  obtain rfl : h' = 3 := by
    refine Nat.le_antisymm (Nat.le_of_not_lt fun hlt => ?_) (hlongest'.2 ?_)
    · cases hread.symm.trans ((hdecoded 3).2 hlt)
    · exact .inside not_false List.mem_cons_self (.inside not_false List.mem_cons_self .one)
  exact ⟨hstrict, hdecode, hencode, hlongest, hlongest', (hencoded 1).2 (by decide),
    (hdecoded 2).2 (by decide)⟩

end CborSchema
