import CborSchema.Proofs.Decode.Unions
import CborSchema.Proofs.Roundtrip.Maps

/-!
# Items read back

What is written for an item of any kind is read as it, with the tag in front of it.

* `wins_of_first` -- a candidate takes the bytes that none before it accepts;
* `Shape.Legible` -- what is written of a content can be told apart from what is written of others;
* `Shape.Mirrored` -- parts that are read as they were written, and are written the same again;
* `KindAs.read` -- **an item is read back**, by the kind of its shape;
* `KindAt.tagged`, `KindAs.readKept` -- and so it is with the tag in front of it and the bytes it
  keeps.
-/

namespace CborSchema

open Decoder

variable {s : Shape} {t : TypeExpr} {w : Writing} {r : Reading} {g : Value → Value}

/-! ## 1. Unions -/

/-- **The candidate that takes an item** is the first that does not mismatch. -/
theorem wins_of_first {u : Bytes} {ts : List TypeExpr} {t : TypeExpr} {v : Value} (ht : t ∈ ts)
    (hbefore : ∀ t' ∈ ts.takeWhile (· ≠ t), Mismatch ((r.part t').whole u).result)
    (hv : ((r.part t).whole u).result = .ok v) : Wins r u ts v := by
  induction ts with
  | nil => cases ht
  | cons t' ts ih =>
    by_cases heq : t' = t
    · subst heq
      exact .here hv
    · rw [List.takeWhile_cons_of_pos (by simpa using heq)] at hbefore
      obtain ⟨⟨e, he, hc⟩, hbefore⟩ := List.forall_mem_cons.mp hbefore
      have hmem : t ∈ ts := by
        rcases List.mem_cons.mp ht with rfl | h
        · exact absurd rfl heq
        · exact h
      exact .later he hc (ih hmem hbefore)

/-- No candidate declared before the one that is written accepts the bytes. -/
def Shape.NoneBefore (s : Shape) (r : Reading) (content : Content Value) (u : Bytes) : Prop :=
  ∀ z, content = .variant z → ∀ t ∈ s.candidates.takeWhile (· ≠ z.type),
    Mismatch ((r.part t).whole u).result

/-- **A union that is written is read back.** -/
theorem Shape.UnionAs.read {p : Pieces} {u : Bytes} (h : s.UnionAs w p u)
    (he : ∀ z ∈ p.content.parts, Echoed w r g u.length z) (hdepth : u.length ≤ r.depth)
    (hbefore : s.NoneBefore r p.content u) :
    s.UnionAt r { name := s.name, content := p.content.map g } u := by
  cases h with
  | mk hc hm hv =>
    rename_i z
    rw [hc] at he hbefore ⊢
    have hz := (he z (by simp [Content.parts]) _ _ (Nat.le_refl _) hv).1
    have hitem : Item (r.depth + 1) u := hz.item.mono (Nat.le_succ_of_le hdepth)
    exact .mk hitem (wins_of_first hm (hbefore z rfl) hz.reads.whole)

/-! ## 2. Kinds -/

/-- A content as a reader sees it: an integer by its sign. -/
def Content.wire {α : Type} : Content α → Content α
  | .scalar x => .scalar x.wire
  | content => content

/-- The index that a constructor of a shape is written with; other items have none. -/
def Shape.writtenIndex (s : Shape) (alternative : Option UInt64) : Option UInt64 :=
  match s.kind, s.alternative with
  | .constructor, some (.index i) => some i
  | .constructor, some (.general i) => some i
  | .constructor, _ => alternative
  | _, _ => none

theorem writtenIndex_of_kind (hk : s.kind ≠ .constructor) (alternative : Option UInt64) :
    s.writtenIndex alternative = none := by
  rw [Shape.writtenIndex]
  split
  · contradiction
  · contradiction
  · contradiction
  · rfl

theorem constructorIndex_written {p : Pieces} {index : UInt64} {general : Bool}
    (hk : s.kind = .constructor) (h : s.constructorIndex p = .ok (index, general)) :
    s.writtenIndex p.alternative = some index := by
  unfold Shape.constructorIndex at h
  rw [Shape.writtenIndex, hk]
  split at h
  · rename_i hs
    cases h
    rw [hs]
  · rename_i hs
    cases h
    rw [hs]
  · rename_i hp hg hi
    cases h
    rw [hp]
    split
    · rename_i hs
      exact absurd hs (hi _)
    · rename_i hs
      exact absurd hs (hg _)
    · rfl
    · contradiction
  · cases h

/-- A constructor that has the index it was written with is written with it again. -/
theorem constructorIndex_again {p p' : Pieces} {index : UInt64} {general : Bool}
    (h : s.constructorIndex p = .ok (index, general)) (hp' : p'.alternative = some index) :
    s.constructorIndex p' = s.constructorIndex p := by
  rw [h]
  unfold Shape.constructorIndex at h ⊢
  rw [hp']
  split at h
  · rename_i hs
    cases h
    rw [hs]
  · rename_i hs
    cases h
    rw [hs]
  · rename_i hp hg hi
    cases h
    rfl
  · cases h

/-- What is written of a content can be told apart from what is written of others: a slot from null,
    a key from the other keys, and the candidate that was taken from those declared before it. -/
structure Shape.Legible (s : Shape) (w : Writing) (r : Reading) (content : Content Value)
    (u : Bytes) : Prop where
  slots : s.NeverNull w content
  keys : KeysDiffer w content
  candidates : s.kind = .union → s.NoneBefore r content u

/-- Parts that are read as they were written, with the images of the values in them: whatever asks
    for them in the style that was observed is written the same again. -/
structure Shape.Mirrored (s : Shape) (w : Writing) (g : Value → Value) (p : Pieces) (u : Bytes)
    (parts : Parts) : Prop where
  content : parts.content = p.content.wire.map g
  alternative : parts.alternative = s.writtenIndex p.alternative
  framing : s.kind = .list → parts.style.indefinite = w.indefinite s.length p.style
  again : ∀ p' : Pieces, p'.content = p.content.map g → p'.alternative = parts.alternative →
    Repeats p.style parts.style.indefinite p'.style → s.KindAs w p' u

theorem Shape.ArrayAs.wire {p : Pieces} {u : Bytes} (h : s.ArrayAs w p u) :
    p.content.wire = p.content := by
  cases h with
  | items hl hc hv => rw [hc]; rfl
  | fields hl hc hn he => rw [hc]; rfl

theorem Shape.MapAs.wire {p : Pieces} {u : Bytes} (h : s.MapAs w p u) :
    p.content.wire = p.content := by
  cases h with
  | entries hl hc he => rw [hc]; rfl
  | fields hl hc hn hp he => rw [hc]; rfl

/-- **An item that is written is read back**, by the kind of its shape. -/
theorem Shape.KindAs.read {p : Pieces} {u : Bytes} (h : s.KindAs w p u) (hs : s.check t = .ok ())
    (he : ∀ z ∈ p.content.parts, Echoed w r g u.length z) (hroom : r.Roomy u.length)
    (hdepth : u.length ≤ r.depth) (hlegible : s.Legible w r p.content u) :
    ∃ parts, s.KindAt r parts u ∧ s.Mirrored w g p u parts := by
  cases h with
  | scalar hk hc hx =>
    rename_i kind x
    obtain ⟨head, front, rest, rfl, hh, hafter, hagain⟩ := writeScalarOf_read hx hroom
    refine ⟨_, .scalar hk (.mk hh hafter), ?_, ?_, ?_, ?_⟩
    · rw [hc]
      rfl
    · exact (writtenIndex_of_kind (by rw [hk]; simp) _).symm
    · exact fun hlist => absurd (hk.symm.trans hlist) (by simp)
    · intro p' hc' _ hstyle
      rw [hc] at hc'
      exact .scalar hk hc' (hagain _ hstyle)
  | list hk h =>
    have hread := h.read he hroom hlegible.slots
    refine ⟨_, .list hk hread, ?_, ?_, fun _ => rfl, ?_⟩
    · rw [h.wire]
    · exact (writtenIndex_of_kind (by rw [hk]; simp) _).symm
    · intro p' hc' _ hstyle
      exact .list hk (h.again he hc' hstyle.indefinite)
  | map hk h =>
    have hread := h.read (check_keys hs hk) he hroom hlegible.keys
    refine ⟨_, .map hk hread, ?_, ?_, ?_, ?_⟩
    · rw [h.wire]
    · exact (writtenIndex_of_kind (by rw [hk]; simp) _).symm
    · exact fun hlist => absurd (hk.symm.trans hlist) (by simp)
    · intro p' hc' _ hstyle
      exact .map hk (h.again he hc' hstyle.indefinite)
  | constructor hk h =>
    obtain ⟨index, general, hindex, hread⟩ := h.read he hroom hlegible.slots
    refine ⟨_, .constructor hk hread, ?_, ?_, ?_, ?_⟩
    · cases h with
      | mk hi hu => rw [hu.wire]
    · rw [constructorIndex_written hk hindex]
    · exact fun hlist => absurd (hk.symm.trans hlist) (by simp)
    · intro p' hc' halternative hstyle
      have hindex' := constructorIndex_again hindex halternative
      exact .constructor hk (h.again he hc' hstyle.indefinite hindex')
  | union hk h =>
    have hread := h.read he hdepth (hlegible.candidates hk)
    refine ⟨_, .union hk hread, ?_, ?_, ?_, ?_⟩
    · cases h with
      | mk hc hm hv =>
        rw [hc]
        rfl
    · exact (writtenIndex_of_kind (by rw [hk]; simp) _).symm
    · exact fun hlist => absurd (hk.symm.trans hlist) (by simp)
    · intro p' hc' _ _
      exact .union hk (h.again he hc')

/-! ## 3. Tags -/

theorem Shape.ScalarAfter.major_ne_tag {h : Head} {kind : Primitive} {x : Scalar} {u : Bytes}
    (hx : s.ScalarAfter r h kind x u) : h.major ≠ .tag := by
  intro hm
  cases hx with
  | bool hb => simp [Head.truth, hm] at hb
  | null hn => simp [Head.null, hm] at hn
  | uint hn => simp [Head.uint, hm] at hn
  | int hn => simp [Head.int, hm] at hn
  | bytes hp => simp [hp.major] at hm
  | embedded hp => simp [hp.major] at hm
  | text hp ht => simp [hp.major] at hm

/-- **An item that may have a tag does not start with one of its own.** -/
theorem Shape.KindAt.head_ne_tag {parts : Parts} {u : Bytes} (h : s.KindAt r parts u)
    (hs : s.check t = .ok ()) (htag : s.tag ≠ none) :
    ∃ head, StartsHead head u ∧ head.major ≠ .tag := by
  cases h with
  | scalar hk h =>
    cases h with
    | mk hh hx => exact ⟨_, hh.starts _, hx.major_ne_tag⟩
  | list hk h =>
    have hopens : ∃ head, StartsHead head u ∧ head.major = .array := by
      cases h with
      | items hl ho hb hv => exact ho.startsHead _
      | fields hl ho hp hb hx hk => exact ho.startsHead _
    obtain ⟨head, hh, hm⟩ := hopens
    exact ⟨head, hh, by simp [hm]⟩
  | map hk h =>
    have hopens : ∃ head, StartsHead head u ∧ head.major = .map := by
      cases h with
      | entries hl ho hb hes hkeys => exact ho.startsHead _
      | fields hl ho hb hsteps hc => exact ho.startsHead _
    obtain ⟨head, hh, hm⟩ := hopens
    exact ⟨head, hh, by simp [hm]⟩
  | constructor hk h => exact absurd (check_constructor hs hk).1 htag
  | union hk h => exact absurd (check_union hs hk).1 htag

section tagBefore

variable {tag : UInt64} {style : Option ItemStyle}

theorem tagBefore_none (ht : s.tag = none) : s.tagBefore style = [] := by
  unfold Shape.tagBefore
  rw [ht]

theorem tagBefore_required (ht : s.tag = some (.required tag)) :
    s.tagBefore style = tagBytes tag := by
  unfold Shape.tagBefore
  rw [ht]

theorem tagBefore_optional (ht : s.tag = some (.optional tag)) :
    s.tagBefore style = if style.all (·.tagged) then tagBytes tag else [] := by
  unfold Shape.tagBefore
  rw [ht]
  cases style with
  | none => rfl
  | some style => rfl

end tagBefore

/-- **A tag that is written in front of an item is read, and one that is not is not.** Whatever
    style tells the same of the tag writes it again. -/
theorem Shape.KindAt.tagged {parts : Parts} {u : Bytes} (h : s.KindAt r parts u)
    (hs : s.check t = .ok ()) (style : Option ItemStyle) :
    ∃ tagged, s.ItemAt r { parts with style := { parts.style with tagged } }
      (s.tagBefore style ++ u) ∧
      ∀ observed : ItemStyle, observed.tagged = tagged →
        s.tagBefore (some observed) = s.tagBefore style := by
  cases ht : s.tag with
  | none =>
    rw [tagBefore_none ht]
    exact ⟨false, .untagged ht h, fun _ _ => tagBefore_none ht⟩
  | some rule =>
    obtain ⟨info, hh⟩ := headBytes_spelled .tag rule.number .minimal
    have htagged : s.ItemAt r { parts with style := { parts.style with tagged := true } }
        (tagBytes rule.number ++ u) := .tagged ht hh rfl rfl h
    cases rule with
    | required tag =>
      rw [tagBefore_required ht]
      exact ⟨true, htagged, fun _ _ => tagBefore_required ht⟩
    | optional tag =>
      rw [tagBefore_optional ht]
      by_cases hstyle : style.all (·.tagged) = true
      · rw [if_pos hstyle]
        refine ⟨true, htagged, fun observed hobs => ?_⟩
        rw [tagBefore_optional ht, if_pos (by simpa using hobs)]
      · rw [if_neg hstyle]
        obtain ⟨head, hstart, hm⟩ := h.head_ne_tag hs (by rw [ht]; simp)
        refine ⟨false, .absent ht hstart hm h, fun observed hobs => ?_⟩
        rw [tagBefore_optional ht, if_neg (by simp [hobs])]

/-! ## 4. Items -/

/-- **An item that is written is read back**, with the tag in front of it and its bytes where the
    shape keeps them. The style it was written in and the one that is observed write it again. -/
theorem Shape.KindAs.readKept {p : Pieces} {u : Bytes} (h : s.KindAs w p u)
    (hs : s.check t = .ok ()) (he : ∀ z ∈ p.content.parts, Echoed w r g u.length z)
    (hroom : r.Roomy u.length) (hdepth : u.length ≤ r.depth)
    (hlegible : s.Legible w r p.content u) :
    ∃ parts, s.KeptAt r parts (s.tagBefore p.style ++ u) ∧ s.Mirrored w g p u parts ∧
      (s.preserveRaw = true → parts.raw = some (s.tagBefore p.style ++ u)) ∧
      ∀ style, style = p.style ∨ style = some parts.style →
        s.tagBefore style = s.tagBefore p.style ∧ Repeats p.style parts.style.indefinite style := by
  obtain ⟨parts, hkind, hmirror⟩ := h.read hs he hroom hdepth hlegible
  obtain ⟨tagged, hitem, hbefore⟩ := hkind.tagged hs p.style
  have hstyle : ∀ style, style = p.style ∨ style = some { parts.style with tagged } →
      s.tagBefore style = s.tagBefore p.style ∧ Repeats p.style parts.style.indefinite style := by
    rintro style (rfl | rfl)
    · exact ⟨rfl, .inl rfl⟩
    · exact ⟨hbefore _ rfl, .inr ⟨_, rfl, rfl⟩⟩
  by_cases hraw : s.preserveRaw = true
  · exact ⟨_, .kept hraw hitem,
      ⟨hmirror.content, hmirror.alternative, hmirror.framing, hmirror.again⟩, fun _ => rfl, hstyle⟩
  · exact ⟨_, .dropped (by simpa using hraw) hitem,
      ⟨hmirror.content, hmirror.alternative, hmirror.framing, hmirror.again⟩,
      fun hno => absurd hno hraw, hstyle⟩

end CborSchema
