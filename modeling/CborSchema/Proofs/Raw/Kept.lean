import CborSchema.Proofs.Raw.ReadPlaces
import CborSchema.Proofs.Raw.WrittenPlaces

/-!
# Kept bytes

A type that keeps the bytes of its values keeps exactly the bytes of the item, and they are written
again as they were, in the place of the item.

* `lies_or_replayed` -- what is written down to a value that kept bytes: the outermost value on the
  way to it that kept bytes is written as these;
* `Catalog.Stands` -- where the bytes of a value stand in what is written;
* `Catalog.raw_bytes_are_exact` -- **kept bytes are exact at every depth.**
-/

namespace CborSchema

open Decoder

variable {c : Catalog}

/-- **On the way down to a value that kept bytes, the outermost that kept bytes is written as
    these**, and its place is that of its item. -/
theorem lies_or_replayed {o : EncodeOptions} {n : Nat} {v y : Value} {b u : Bytes} {path : List Nat}
    (h : c.codec.WrittenTo o n v b) (hy : v.at? path = some y) (hkeeps : c.KeepsBytes y.type)
    (hr : y.notes.raw = some u) :
    ∃ p q z w pre post, path = p ++ q ∧ c.KeepsBytes z.type ∧ z.notes.raw = some w ∧
      Lies c (c.codec.asWritten o) n v b p z pre w post := by
  induction path generalizing n v b with
  | nil =>
    cases hy
    cases n with
    | zero => exact absurd h Codec.not_writes_zero
    | succ n =>
      have hu : c.codec.WrittenTo o (n + 1) y u := written_of_raw hkeeps hr
      obtain rfl : b = u := Except.ok.inj (h.symm.trans hu)
      exact ⟨[], [], y, b, [], [], rfl, hkeeps, hr, .here h⟩
  | cons i path ih =>
    obtain ⟨z, hz, hy⟩ := Option.bind_eq_some_iff.mp hy
    rcases place_of_written h hz with ⟨hv, hraw⟩ | hplace
    · exact ⟨[], i :: path, v, b, [], [], rfl, hv, hraw, .here h⟩
    · obtain ⟨m, s, tagged, lead, before, x, behind, rfl, rfl, hs, hlead, hat, hx⟩ := hplace
      obtain ⟨p, q, z', w, pre, post, rfl, hkeeps', hraw, hl⟩ := ih hx hy
      exact ⟨i :: p, q, z', w, _, _, rfl, hkeeps', hraw, .inside h hs hlead hz hat hl⟩

/-- Where the bytes `u` that the value `y` at a path in `v` was read from stand in the bytes `b`
    that are written for `v`. -/
inductive Catalog.Stands (c : Catalog) (o : DecodeOptions) (o' : EncodeOptions) (v : Value)
    (b : Bytes) (path : List Nat) (y : Value) (u : Bytes) : Prop where
  /-- In the place of `y`. -/
  | alone {pre post : Bytes} (hb : b = pre ++ (u ++ post))
      (hl : Lies c (c.codec.asWritten o') o'.maxDepth v b path y pre u post) :
      Stands c o o' v b path y u
  /-- In the bytes that a value around `y` kept, which stand in the place of that value. -/
  | around {p q : List Nat} {z : Value} {w pre₁ post₁ pre₂ post₂ : Bytes} {depth : Nat}
      (hpath : path = p ++ q) (hq : q ≠ []) (hdepth : o.maxDepth = p.length + depth)
      (hkeeps : c.KeepsBytes z.type) (hraw : z.notes.raw = some w) (hb : b = pre₁ ++ (w ++ post₁))
      (hl : Lies c (c.codec.asWritten o') o'.maxDepth v b p z pre₁ w post₁)
      (hw : w = pre₂ ++ (u ++ post₂)) (hu : Lies c (c.codec.asRead o) depth z w q y pre₂ u post₂) :
      Stands c o o' v b path y u

/-- **Kept bytes are exact at every depth.** Let `b` decode to `v` as a type; all of `b` is used up
    unless bytes may be left.

    * If the type keeps bytes, `v` encodes to exactly the bytes that were used, whatever the
      options, with any nesting at all.
    * Whatever value `y` is in `v`, at whatever path, its item is a stretch `u` of the bytes used,
      its tag included: at each step of the path the element or the entry that the part was read
      from. `u` alone decodes to `y` with the nesting that is left there: one less for each value
      around it. If the type of `y` keeps bytes, `y` kept `u`; and if `v` encodes at all, `u` stands
      in the place of `y` in what is written, at each step behind all that is written in front of
      the part, or in the bytes that a value around `y` kept, in the place it was read from. -/
theorem Catalog.raw_bytes_are_exact (c : Catalog) (o : DecodeOptions) (t : TypeExpr) (b : Bytes)
    (v : Value) (h : (c.codec.decode t b o).result = .ok v) :
    ∃ used rest, b = used ++ rest ∧ (o.allowTrailing = true ∨ rest = []) ∧
      (c.KeepsBytes t → ∀ o' : EncodeOptions, 1 ≤ o'.maxDepth →
        (c.codec.encode v o').result = .ok used) ∧
      ∀ path y, v.at? path = some y → ∃ pre u post depth,
        Lies c (c.codec.asRead o) o.maxDepth v used path y pre u post ∧
        used = pre ++ (u ++ post) ∧ o.maxDepth = path.length + depth ∧
        c.codec.trial o depth y.type u = .ok y ∧
        (c.KeepsBytes y.type → y.notes.raw = some u ∧
          ∀ (o' : EncodeOptions) b', (c.codec.encode v o').result = .ok b' →
            c.Stands o o' v b' path y u) := by
  obtain ⟨used, rest, rfl, htrailing, hreads⟩ := Codec.decode_eq_ok.mp h
  obtain rfl : v.type = t := by
    obtain ⟨_, _, _, _, htype⟩ := c.codec.sound o o.maxDepth t used v [] hreads.alone
    exact htype
  refine ⟨used, rest, rfl, htrailing, fun hkeeps o' ho' => ?_, fun path y hy => ?_⟩
  · obtain ⟨n, hn⟩ := Nat.exists_eq_add_of_le' ho'
    have hwritten : c.codec.WrittenTo o' (n + 1) v used :=
      written_of_raw hkeeps (raw_of_read hreads hkeeps)
    rw [Codec.encode, hn]
    exact hwritten
  · obtain ⟨pre, u, post, hl⟩ := lies_of_read hreads hy
    obtain ⟨depth, hdepth, hyread⟩ := hl.holds
    refine ⟨pre, u, post, depth, hl, hl.eq_append, hdepth, Codec.trial_of_reads hyread, ?_⟩
    intro hkeeps
    have hraw := raw_of_read hyread hkeeps
    refine ⟨hraw, fun o' b' hb' => ?_⟩
    obtain ⟨p, q, z, w, pre₁, post₁, rfl, hzkeeps, hzraw, hlw⟩ :=
      lies_or_replayed hb' hy hkeeps hraw
    -- the value that is written as it was read lies around `y`, or is `y`
    obtain ⟨m, z', w', _, _, pre₂, post₂, hm, hz, hy'⟩ := hl.split
    obtain rfl : z = z' := Option.some.inj (hlw.at?.symm.trans hz.at?)
    obtain ⟨_, _, hzread⟩ := hz.holds
    obtain rfl : w = w' := Option.some.inj (hzraw.symm.trans (raw_of_read hzread hzkeeps))
    by_cases hq : q = []
    · subst hq
      cases hy' with
      | here _ =>
        rw [← List.append_nil p] at hlw
        exact .alone hlw.eq_append hlw
    · exact .around rfl hq hm hzkeeps hzraw hlw.eq_append hlw hy'.eq_append hy'

/-- The integer 2 under a wider head than it needs, behind another integer in a list: its bytes are
    kept and written, in the second place. -/
theorem Catalog.wide_head_is_kept :
    let c : Catalog := {
      declared := fun _ => { schema := (Schema.scalar .uint).keepingRaw }
      printName := fun _ => "kept" }
    let b : Bytes := [0x82, 0x01, 0x18, 0x02]
    ∃ v y, (c.codec.decode (.list (.named "kept")) b).result = .ok v ∧
      v.at? [1] = some y ∧ y.notes.raw = some [0x18, 0x02] ∧
      (c.codec.encode v).result = .ok b ∧ c.Stands {} {} v b [1] y [0x18, 0x02] := by
  intro c b
  let kept (n : UInt64) (raw : Bytes) : Value :=
    .node (.named "kept") (.scalar (.uint n)) { raw := some raw }
  have hdecode : (c.codec.decode (.list (.named "kept")) b).result =
      .ok (.ofItems (.named "kept") [kept 1 [0x01], kept 2 [0x18, 0x02]]) := by cbv
  have hencode : (c.codec.encode
      (.ofItems (.named "kept") [kept 1 [0x01], kept 2 [0x18, 0x02]])).result =
      .ok b := by cbv
  obtain ⟨_, _, _, _, _, hplace⟩ := c.raw_bytes_are_exact {} _ _ _ hdecode
  obtain ⟨_, u, _, _, _, _, _, _, hkept⟩ := hplace [1] _ rfl
  obtain ⟨hraw, hstands⟩ := hkept ⟨_, rfl, rfl⟩
  obtain rfl : [0x18, 0x02] = u := Option.some.inj hraw
  exact ⟨_, _, hdecode, rfl, rfl, hencode, hstands {} b hencode⟩

end CborSchema
