import CborSchema.Proofs.Decode.Inside
import CborSchema.Proofs.Raw.Spans
import CborSchema.Proofs.Roundtrip.Items

/-!
# Styles written again

A value that keeps the style it was read in is written in this style, where the shape leaves it
open. A string that is longer than the chunks of its type is cut into chunks all the same.

* `Framed`, `Shape.Styled` -- the style of an item, said of its bytes; `Styled.unique`: it has one;
* `KeptAt.styled` -- the style that is recorded is that of the item;
* `Shape.rechunks`, `written_styled` -- what is written in a style is of this style, or is cut;
* `Catalog.KeepsStyle` -- a type whose values ask for the style that was recorded: a declared type
  that says so, a list that keeps its framing;
* `Value.HandsBack` -- a value that remembers of its item what another one does, or has dropped its
  bytes;
* `Catalog.recorded_style_is_written` -- **an item is written as it was framed and tagged, but for a
  string that is cut.**
-/

namespace CborSchema

open Decoder

variable {s : Shape} {t : TypeExpr}

/-! ## 1. Styles on the wire -/

/-- Bytes that start with a head of indefinite length, or of none, which is no tag. -/
def Framed (indefinite : Bool) (u : Bytes) : Prop :=
  ∃ h : Head, StartsHead h u ∧ h.major ≠ .tag ∧ h.isIndefinite = indefinite

/-- An item of a shape in a style: with its tag or without, and with that framing behind what it has
    in front. -/
inductive Shape.Styled (s : Shape) (style : ItemStyle) : Bytes → Prop where
  | mk {lead u : Bytes} (hl : s.Lead style.tagged lead) (hf : Framed style.indefinite u) :
      Styled s style (lead ++ u)

/-- **An item has one style.** -/
theorem Shape.Styled.unique {style style' : ItemStyle} {u : Bytes} (h : s.Styled style u)
    (h' : s.Styled style' u) : style = style' := by
  cases h with
  | @mk lead x hl hf =>
    generalize hu : lead ++ x = u at h'
    cases h' with
    | mk hl' hf' =>
      obtain ⟨head, hstart, hne, hi⟩ := hf
      obtain ⟨head', hstart', hne', hi'⟩ := hf'
      obtain ⟨htagged, rfl, rfl⟩ := hl.cancel hl' ⟨head, hstart, hne⟩ ⟨head', hstart', hne'⟩ hu
      obtain rfl := hstart.unique hstart'
      obtain ⟨indefinite, tagged⟩ := style
      obtain ⟨indefinite', tagged'⟩ := style'
      rw [ItemStyle.mk.injEq]
      exact ⟨hi.symm.trans hi', htagged⟩

/-! ## 2. Styles read -/

section reading

variable {r : Reading} {p : Parts} {u : Bytes}

/-- A scalar that is no string has a head with an argument. -/
theorem Shape.ScalarAfter.definite {h : Head} {kind : Primitive} {x : Scalar} {front : Bytes}
    (hx : s.ScalarAfter r h kind x u) (hh : h.Spelled front) (hk : kind.isString = false) :
    h.isIndefinite = false := by
  by_contra hi
  have harg : h.arg = none := by simpa [Head.isIndefinite] using hi
  have hopen := hh.hasOpenForm harg
  cases hx with
  | bool hb =>
    unfold Head.truth at hb
    simp [harg] at hb
  | null hn =>
    unfold Head.null at hn
    simp [harg] at hn
  | uint hn =>
    unfold Head.uint at hn
    split at hn
    · rename_i hm
      simp [hm, Major.hasOpenForm] at hopen
    · cases hn
  | int hn =>
    unfold Head.int at hn
    split at hn
    · rename_i hm
      simp [hm, Major.hasOpenForm] at hopen
    · rename_i hm
      simp [hm, Major.hasOpenForm] at hopen
    · cases hn
  | bytes _ => cases hk
  | embedded _ => cases hk
  | text _ _ => cases hk

theorem Shape.ScalarAt.framed {kind : Primitive} (h : s.ScalarAt r kind p u) :
    Framed p.style.indefinite u ∧ (kind.isString = false → p.style.indefinite = false) := by
  cases h with
  | @mk head front x scalar hh hx =>
    refine ⟨⟨head, hh.starts _, hx.major_ne_tag, ?_⟩, fun hk => by simp [hk]⟩
    cases hk : kind.isString with
    | true => simp
    | false => simpa using hx.definite hh hk

theorem Shape.Opens.framed {m : Major} {e : Pending} {front : Bytes} (h : s.Opens r m e front)
    (hm : m ≠ .tag) (body : Bytes) : Framed e.style.indefinite (front ++ body) := by
  cases h with
  | counted hh hm' hn _ _ => exact ⟨_, hh.starts body, hm' ▸ hm, by rw [Head.isIndefinite, hn]; rfl⟩
  | toBreak hh hm' hn _ => exact ⟨_, hh.starts body, hm' ▸ hm, by rw [Head.isIndefinite, hn]; rfl⟩

/-- The framing of an item of any kind but a union is recorded. -/
theorem Shape.BodyAt.framed (hk : s.kind ≠ .union) (h : s.BodyAt r p u) :
    Framed p.style.indefinite u ∧
      ∀ kind, s.kind = .scalar kind → kind.isString = false → p.style.indefinite = false := by
  cases h with
  | scalar hkind h =>
    refine ⟨h.framed.1, fun kind hk' => ?_⟩
    obtain rfl := Kind.scalar.inj (hkind.symm.trans hk')
    exact h.framed.2
  | array hkind h =>
    obtain ⟨e, front, body, content, n, inner, rfl, ho, hb, hc, rfl⟩ := Shape.arrayAt_iff.mp h
    refine ⟨ho.framed (by decide) body, fun kind hk' => ?_⟩
    rcases hkind with hkind | hkind
    · cases hkind.symm.trans hk'
    · cases hkind.symm.trans hk'
  | map hkind h =>
    obtain ⟨e, front, body, content, n, inner, rfl, ho, hb, hc, rfl⟩ := Shape.mapAt_iff.mp h
    exact ⟨ho.framed (by decide) body, fun kind hk' => by cases hkind.symm.trans hk'⟩
  | union hkind _ => exact absurd hkind hk

/-- A style that an item of the shape can have. -/
structure Shape.Records (s : Shape) (style : ItemStyle) : Prop where
  untagged : s.tag = none → style.tagged = false
  tagged : ∀ n, s.tag = some (.required n) → style.tagged = true
  definite : ∀ kind, s.kind = .scalar kind → kind.isString = false → style.indefinite = false

theorem Shape.ItemAt.tag_records (h : s.ItemAt r p u) : (s.tag = none → p.style.tagged = false) ∧
    ∀ n, s.tag = some (.required n) → p.style.tagged = true := by
  cases h with
  | untagged ht _ => exact ⟨fun _ => rfl, fun n hn => by cases ht.symm.trans hn⟩
  | absent ht _ _ _ => exact ⟨fun _ => rfl, fun n hn => by cases ht.symm.trans hn⟩
  | tagged ht _ _ _ _ => exact ⟨fun hn => (by cases ht.symm.trans hn), fun _ _ => rfl⟩

theorem Shape.KeptAt.tag_records (h : s.KeptAt r p u) : (s.tag = none → p.style.tagged = false) ∧
    ∀ n, s.tag = some (.required n) → p.style.tagged = true := by
  cases h with
  | kept _ hi =>
    have hitem := hi.tag_records
    exact hitem
  | dropped _ hi => exact hi.tag_records

/-- **The style that is recorded is that of the item.** -/
theorem Shape.KeptAt.styled (hc : s.check t = .ok ()) (hk : s.kind ≠ .union) (h : s.KeptAt r p u) :
    s.Styled p.style u ∧ s.Records p.style := by
  obtain ⟨hnone, hrequired⟩ := h.tag_records
  obtain ⟨tagged, lead, w, parts, rfl, hlead, hbody, -, hstyle⟩ := h.behind_lead hc
  obtain ⟨hframed, hdefinite⟩ := hbody.framed hk
  rw [hstyle] at hnone hrequired ⊢
  exact ⟨.mk hlead hframed, hnone, hrequired, hdefinite⟩

end reading

/-! ## 3. Styles written -/

section writing

variable {w : Writing} {p : Pieces} {u : Bytes} {style : ItemStyle}

theorem Major.ne_tag_of_hasOpenForm {m : Major} (hm : m.hasOpenForm = true) : m ≠ .tag := by
  rintro rfl
  cases hm

theorem headBytes_framed {m : Major} (hm : m ≠ .tag) (n : UInt64) (width : HeadWidth)
    (tail : Bytes) : Framed false (headBytes m n width ++ tail) := by
  obtain ⟨info, hh⟩ := headBytes_spelled m n width
  exact ⟨_, hh.starts tail, hm, rfl⟩

theorem indefiniteHead_framed {m : Major} (hm : m.hasOpenForm = true) (tail : Bytes) :
    Framed true (indefiniteHead m ++ tail) := by
  exact ⟨_, (indefiniteHead_spelled hm).starts tail, Major.ne_tag_of_hasOpenForm hm, rfl⟩

theorem collectionBytes_framed {m : Major} (hm : m.hasOpenForm = true) (indefinite : Bool) (n : Nat)
    (inner : Bytes) : Framed indefinite (collectionBytes m indefinite n inner) := by
  obtain ⟨head, front, hh, hmajor, hframing, hu⟩ := collectionBytes_frame hm indefinite n inner
  have hne : head.major ≠ .tag := hmajor ▸ Major.ne_tag_of_hasOpenForm hm
  exact ⟨head, hu ▸ hh.starts _, hne, hframing⟩

theorem writePayload_framed {style : Option ItemStyle} {m : Major} {payload : Bytes}
    {pieces : Nat → List Bytes} (hm : m.hasOpenForm = true)
    (h : s.writePayload style m payload pieces = .ok u) :
    Framed (s.chunked style payload.length) u := by
  obtain ⟨-, rfl⟩ := writePayload_eq_ok h
  cases s.chunked style payload.length with
  | true =>
    rw [if_pos rfl, chunkedBytes, List.append_assoc]
    exact indefiniteHead_framed hm _
  | false => exact headBytes_framed (Major.ne_tag_of_hasOpenForm hm) _ _ _

/-- Whether a string is longer than the chunks of its type. -/
def Shape.rechunks (s : Shape) : Content Value → Bool
  | .scalar (.bytes payload) => s.chunkSize.any fun size => size < payload.length
  | .scalar (.text text) => s.chunkSize.any fun size => size < (textPayload text).length
  | _ => false

/-- **A scalar is framed as asked for, or is a string that is cut.** -/
theorem writeScalarOf_framed (hl : s.length = .either) {kind : Primitive} {x : Scalar}
    (hd : kind.isString = false → style.indefinite = false)
    (h : s.writeScalarOf (some style) kind x = .ok u) :
    Framed (style.indefinite || s.rechunks (.scalar x)) u := by
  have hchunked : ∀ n, s.chunked (some style) n =
      (style.indefinite || s.chunkSize.any fun size => size < n) := by
    intro n
    rw [Shape.chunked, hl]
    rfl
  have hint : ∀ {m : Major} {n : UInt64} {b : Bytes}, m ≠ .tag → b = headBytes m n s.headWidth →
      (s.requireWidth n >>= fun _ => pure b : Except EncodeError Bytes) = .ok u →
      Framed false u := by
    rintro m n b hm rfl h
    obtain ⟨_, _, h⟩ := Except.bind_eq_ok h
    cases h
    rw [← List.append_nil (headBytes m n s.headWidth)]
    exact headBytes_framed hm _ _ _
  unfold Shape.writeScalarOf at h
  split at h
  · rename_i b
    cases h
    rw [hd rfl, boolBytes, ← List.append_nil (headBytes _ _ _)]
    exact headBytes_framed (by decide) _ _ _
  · cases h
    rw [hd rfl]
    exact ⟨_, nullBytes_spelled.starts [], by decide, rfl⟩
  · rw [hd rfl]
    exact hint (by decide) rfl h
  · rw [hd rfl]
    exact hint (by decide) rfl h
  · rw [hd rfl]
    refine hint ?_ (by rfl) h
    split
    · decide
    · decide
  · have hframed := writePayload_framed rfl h
    rwa [hchunked] at hframed
  · have hframed := writePayload_framed rfl h
    rwa [hchunked] at hframed
  · have hframed := writePayload_framed rfl h
    rwa [hchunked] at hframed
  · cases h

/-- A collection is framed as asked for. -/
theorem collectionBytes_asked (hl : s.length = .either) (hp : p.style = some style)
    (hcut : s.rechunks p.content = false) {m : Major} (hm : m.hasOpenForm = true) (n : Nat)
    (inner : Bytes) : Framed (style.indefinite || s.rechunks p.content)
      (collectionBytes m (w.indefinite s.length p.style) n inner) := by
  rw [hcut, Bool.or_false, hl, hp]
  exact collectionBytes_framed hm style.indefinite n inner

theorem Shape.ArrayAs.framed (hl : s.length = .either) (hp : p.style = some style)
    (h : s.ArrayAs w p u) : Framed (style.indefinite || s.rechunks p.content) u := by
  cases h with
  | items _ hc _ => exact collectionBytes_asked hl hp (by rw [hc]; rfl) rfl _ _
  | fields _ hc _ _ => exact collectionBytes_asked hl hp (by rw [hc]; rfl) rfl _ _

theorem Shape.MapAs.framed (hl : s.length = .either) (hp : p.style = some style)
    (h : s.MapAs w p u) : Framed (style.indefinite || s.rechunks p.content) u := by
  cases h with
  | entries _ hc _ => exact collectionBytes_asked hl hp (by rw [hc]; rfl) rfl _ _
  | fields _ hc _ _ _ => exact collectionBytes_asked hl hp (by rw [hc]; rfl) rfl _ _

/-- What is written for an item of any kind but a union, behind its tag. -/
theorem Shape.KindAs.framed (hl : s.length = .either) (hk : s.kind ≠ .union)
    (hp : p.style = some style) (hr : s.Records style) (h : s.KindAs w p u) :
    ∃ lead body, u = lead ++ body ∧ s.Lead false lead ∧
      Framed (style.indefinite || s.rechunks p.content) body := by
  cases h with
  | scalar hkind hc hx =>
    rw [hp] at hx
    rw [hc]
    exact ⟨[], u, rfl, .bare (by simp [hkind]), writeScalarOf_framed hl (hr.definite _ hkind) hx⟩
  | list hkind h => exact ⟨[], u, rfl, .bare (by simp [hkind]), h.framed hl hp⟩
  | map hkind h => exact ⟨[], u, rfl, .bare (by simp [hkind]), h.framed hl hp⟩
  | constructor hkind h =>
    cases h with
    | mk hi h => exact ⟨_, _, rfl, .index hkind (constructorFront_at _ _), h.framed hl hp⟩
  | union hkind _ => exact absurd hkind hk

/-- The tag that is recorded is written in front of what an item has in front. -/
theorem Shape.Lead.tagBefore (hc : s.check t = .ok ()) (hr : s.Records style) {lead : Bytes}
    (h : s.Lead false lead) : s.Lead style.tagged (s.tagBefore (some style) ++ lead) := by
  cases h with
  | index hk hi =>
    have htag := (check_constructor hc hk).1
    rw [tagBefore_none htag, hr.untagged htag]
    exact .index hk hi
  | bare hk =>
    rw [List.append_nil]
    cases htag : s.tag with
    | none =>
      rw [tagBefore_none htag, hr.untagged htag]
      exact .bare hk
    | some rule =>
      obtain ⟨info, hh⟩ := headBytes_spelled .tag rule.number .minimal
      have hwritten : s.Lead true (tagBytes rule.number) := .tag hk htag hh rfl rfl
      cases rule with
      | required n =>
        rw [tagBefore_required htag, hr.tagged n htag]
        exact hwritten
      | optional n =>
        rw [tagBefore_optional htag]
        cases hstyle : style.tagged with
        | true =>
          rw [if_pos (by simpa using hstyle)]
          exact hwritten
        | false =>
          rw [if_neg (by simp [hstyle])]
          exact .bare hk

theorem pieces_style {catalog : Catalog} {v : Value} (h : catalog.pieces t v = .ok p) :
    p.style = v.notes.emit ∧ s.rechunks p.content = s.rechunks v.content := by
  have hpieces := pieces_as h
  refine ⟨hpieces.style, ?_⟩
  rcases hpieces.content with hc | ⟨x, y, hx, hy, hc⟩
  · rw [hc]
  · rw [hx, hc]
    cases x with
    | nint n =>
      rw [Scalar.forWriting] at hy
      split at hy
      · cases hy
        rfl
      · cases hy
    | _ =>
      cases hy
      rfl

/-- **A value that asks for a style is written in it, or is a string that is cut.** -/
theorem written_styled {c : Catalog} {o : EncodeOptions} {v : Value} {b : Bytes}
    (hs : c.resolve v.type = .ok s) (hl : s.length = .either) (hk : s.kind ≠ .union)
    (hr : s.Records style) (hemit : v.notes.emit = some style) (hraw : ¬ c.Replays v)
    (hb : (c.codec.encode v o).result = .ok b) :
    s.Styled { style with indefinite := style.indefinite || s.rechunks v.content } b := by
  obtain ⟨m, -, hat⟩ := Codec.exists_writeAs hb
  cases hat with
  | replayed hs' hp _ hraw' => exact absurd ⟨⟨_, hs', hp⟩, by simp [hraw']⟩ hraw
  | @taken s' p u hs' _ hp hkind =>
    obtain rfl := Except.ok.inj (hs.symm.trans hs')
    obtain ⟨hstyle, hcut⟩ := pieces_style (s := s) hp
    have hstyle := hstyle.trans hemit
    obtain ⟨lead, body, rfl, hlead, hframed⟩ := hkind.framed hl hk hstyle hr
    rw [hcut] at hframed
    rw [hstyle, ← List.append_assoc]
    exact .mk (hlead.tagBefore (resolve_check hs).1 hr) hframed

end writing

/-! ## 4. Types that keep the style -/

/-- A type whose values ask for the style that was recorded when they were read. -/
def Catalog.KeepsStyle (c : Catalog) (t : TypeExpr) : Prop :=
  ∀ s r p u v, c.resolve t = .ok s → s.KeptAt r p u → c.construct t s p = .ok v →
    v.notes.emit = some p.style

theorem Catalog.keepsStyle_named {c : Catalog} {name : String}
    (h : (c.declared name).conversion.keepsStyle = true) : c.KeepsStyle (.named name) := by
  intro s r p u v _ _ hv
  obtain ⟨-, content, untaken, -, rfl⟩ := construct_named_iff.mp hv
  show (if (c.declared name).conversion.keepsStyle then some p.style else none) = some p.style
  rw [if_pos h]

/-- A list that keeps its framing has no tag to keep. -/
theorem Catalog.keepsStyle_framedList (c : Catalog) (item : TypeExpr) :
    c.KeepsStyle (.framedList item) := by
  intro s r p u v hs hkept hv
  cases hs
  obtain ⟨vs, _, hv⟩ := Except.bind_eq_ok hv
  cases hv
  have htagged := hkept.tag_records.1 rfl
  obtain ⟨name, content, alternative, ⟨indefinite, tagged⟩, raw⟩ := p
  obtain rfl : tagged = false := htagged
  rfl

/-- **A value that was read asks for the style of the item it was read from.** -/
theorem recorded_of_read {c : Catalog} {o : DecodeOptions} {n : Nat} {u : Bytes} {v : Value}
    (hs : c.resolve t = .ok s) (hk : s.kind ≠ .union) (hkeeps : c.KeepsStyle t)
    (h : (c.codec.read o n t).Reads u v) :
    ∃ style, s.Styled style u ∧ s.Records style ∧ v.notes.emit = some style := by
  obtain ⟨m, rfl, hat⟩ := Codec.exists_readAt h
  obtain ⟨p, hkept, hv⟩ := hat.keptAt hs
  obtain ⟨hstyled, hrecords⟩ := hkept.styled (resolve_check hs).1 hk
  exact ⟨_, hstyled, hrecords, hkeeps _ _ _ _ _ hs hkept hv⟩

/-- A value hands back what another one remembers of its item: the style to be written in, and the
    bytes it kept or none. -/
structure Value.HandsBack (w v : Value) : Prop where
  type : w.type = v.type
  emit : w.notes.emit = v.notes.emit
  raw : w.notes.raw = v.notes.raw ∨ w.notes.raw = none

theorem Value.HandsBack.refl (v : Value) : v.HandsBack v := ⟨rfl, rfl, .inl rfl⟩

theorem Value.dropRaw_handsBack (v : Value) : v.dropRaw.HandsBack v := by
  obtain ⟨type, content, notes⟩ := v
  exact ⟨rfl, rfl, .inr rfl⟩

/-- A value that hands back the bytes it kept is written as these. -/
theorem replayed_eq {c : Catalog} {o : EncodeOptions} {v : Value} {b u : Bytes}
    (hkeeps : c.KeepsBytes v.type) (hr : v.notes.raw = some u)
    (hb : (c.codec.encode v o).result = .ok b) : b = u := by
  obtain ⟨s, hs, hp⟩ := hkeeps
  obtain ⟨m, -, hat⟩ := Codec.exists_writeAs hb
  cases hat with
  | replayed _ _ _ hr' => exact Option.some.inj (hr'.symm.trans hr)
  | taken hs' hno _ _ =>
    obtain rfl := Except.ok.inj (hs.symm.trans hs')
    cases hr.symm.trans (hno hp)

/-- **The style that was recorded is written.** Let the values of a type keep the style they are
    read in, and let its shape leave the framing open and be no union. An item that decodes has one
    style. Whatever value hands back what the decoded value remembers, whatever the options, what it
    encodes to is the item itself if its bytes were kept, and else an item with the tag of the style
    if it has one, and in its framing, except that a string longer than the chunks of its type is
    indefinite in any case. -/
theorem Catalog.recorded_style_is_written (c : Catalog) (t : TypeExpr) (s : Shape)
    (hs : c.resolve t = .ok s) (hl : s.length = .either) (hk : s.kind ≠ .union)
    (hkeeps : c.KeepsStyle t) (o : DecodeOptions) (b : Bytes) (v : Value)
    (hv : (c.codec.decode t b o).result = .ok v) :
    ∃ used rest, b = used ++ rest ∧ (o.allowTrailing = true ∨ rest = []) ∧
      (c.codec.read o o.maxDepth t).Reads used v ∧ (∃! style, s.Styled style used) ∧
      ∀ style, s.Styled style used → ∀ (w : Value) (o' : EncodeOptions) (b' : Bytes),
        w.HandsBack v →
        (c.codec.encode w o').result = .ok b' →
        (c.Replays w → b' = used) ∧
        (¬ c.Replays w →
          s.Styled { style with indefinite := style.indefinite || s.rechunks w.content } b') := by
  obtain ⟨used, rest, rfl, htrailing, hread⟩ := Codec.decode_eq_ok.mp hv
  obtain rfl : v.type = t := by
    obtain ⟨_, _, _, _, htype⟩ := c.codec.sound o o.maxDepth t used v [] hread.alone
    exact htype
  refine ⟨used, rest, rfl, htrailing, hread, ?_⟩
  obtain ⟨style, hstyled, hrecords, hemit⟩ := recorded_of_read hs hk hkeeps hread
  refine ⟨⟨style, hstyled, fun _ h => h.unique hstyled⟩, fun style' h w o' b' hw hb' => ?_⟩
  obtain rfl := h.unique hstyled
  refine ⟨fun ⟨hbytes, hraw⟩ => ?_, fun hraw => ?_⟩
  · have hkept := (hw.raw.resolve_right hraw).trans (raw_of_read hread (hw.type ▸ hbytes))
    exact replayed_eq hbytes hkept hb'
  · exact written_styled (hw.type ▸ hs) hl hk hrecords (hw.emit.trans hemit) hraw hb'

/-- A set of one integer, tagged and of indefinite length, whose type keeps bytes: it is written as
    these, and without them in the same style, though nothing in the options asks for indefinite
    collections. A list that keeps its framing is written in this framing too. -/
theorem Catalog.indefinite_set_keeps_its_style :
    let c : Catalog := {
      declared := fun _ => {
        schema := ((Schema.list.withOptionalTag Tag.finiteSet).withItems .uint64).keepingRaw
        conversion := { keepsStyle := true } }
      printName := fun _ => "set" }
    let tag : Bytes := [0xd9, 0x01, 0x02]
    let wide : Bytes := [0x9f, 0x18, 0x05, 0xff]
    let narrow : Bytes := [0x9f, 0x05, 0xff]
    (∃ s v, c.resolve (.named "set") = .ok s ∧ s.length = .either ∧ c.KeepsStyle (.named "set") ∧
      (c.codec.decode (.named "set") (tag ++ wide)).result = .ok v ∧
      (c.codec.encode v).result = .ok (tag ++ wide) ∧
      (c.codec.encode v.dropRaw).result = .ok (tag ++ narrow) ∧
      s.Styled ⟨true, true⟩ (tag ++ wide) ∧ s.Styled ⟨true, true⟩ (tag ++ narrow)) ∧
    ∃ s v, c.resolve (.framedList .uint64) = .ok s ∧ s.length = .either ∧
      c.KeepsStyle (.framedList .uint64) ∧
      (c.codec.decode (.framedList .uint64) wide).result = .ok v ∧
      (c.codec.encode v).result = .ok narrow ∧
      s.Styled ⟨true, false⟩ wide ∧ s.Styled ⟨true, false⟩ narrow := by
  intro c tag wide narrow
  have hwide : Framed true wide := indefiniteHead_framed (m := .array) rfl [0x18, 0x05, 0xff]
  constructor
  · have hs : ∃ s, c.resolve (.named "set") = .ok s ∧ s.length = .either ∧ s.kind = .list ∧
        s.tag = some (.optional Tag.finiteSet) := ⟨_, rfl, rfl, rfl, rfl⟩
    obtain ⟨s, hs, hl, hk, htag⟩ := hs
    have hkeeps : c.KeepsStyle (.named "set") := c.keepsStyle_named rfl
    let v : Value := .node (.named "set") (.items [.ofScalar .uint64 (.uint 5)])
      { observed := ⟨true, true⟩, emit := some ⟨true, true⟩, raw := some (tag ++ wide) }
    have hv : (c.codec.decode (.named "set") (tag ++ wide)).result = .ok v := by cbv
    have hdropped : (c.codec.encode v.dropRaw).result = .ok (tag ++ narrow) := rfl
    have hstyled : s.Styled ⟨true, true⟩ (tag ++ wide) := by
      obtain ⟨info, hh⟩ := headBytes_spelled .tag Tag.finiteSet .minimal
      have hlead : s.Lead true [0xd9, 0x01, 0x02] := .tag (by simp [hk]) htag hh rfl rfl
      exact .mk hlead hwide
    obtain ⟨used, rest, hb, hrest, _, _, hwritten⟩ :=
      c.recorded_style_is_written _ s hs hl (by simp [hk]) hkeeps {} _ v hv
    obtain rfl := hrest.resolve_left Bool.false_ne_true
    rw [List.append_nil] at hb
    have hagain := (hwritten _ (hb ▸ hstyled) v.dropRaw {} _ v.dropRaw_handsBack hdropped).2
      fun hreplays => hreplays.2 rfl
    exact ⟨s, v, hs, hl, hkeeps, hv, by cbv, hdropped, hstyled, hagain⟩
  · have hs : ∃ s, c.resolve (.framedList .uint64) = .ok s ∧ s.length = .either ∧ s.kind = .list :=
      ⟨_, rfl, rfl, rfl⟩
    obtain ⟨s, hs, hl, hk⟩ := hs
    have hkeeps : c.KeepsStyle (.framedList .uint64) := c.keepsStyle_framedList .uint64
    let v : Value := .framedList .uint64 [.ofScalar .uint64 (.uint 5)] true
    have hv : (c.codec.decode (.framedList .uint64) wide).result = .ok v := by cbv
    have hagain : (c.codec.encode v).result = .ok narrow := by cbv
    have hstyled : s.Styled ⟨true, false⟩ wide := by
      have hbare : s.Lead false [] := .bare (by simp [hk])
      exact (Shape.Styled.mk hbare hwide : s.Styled ⟨true, false⟩ ([] ++ wide))
    obtain ⟨used, rest, hb, hrest, _, _, hwritten⟩ :=
      c.recorded_style_is_written _ s hs hl (by simp [hk]) hkeeps {} _ v hv
    obtain rfl := hrest.resolve_left Bool.false_ne_true
    rw [List.append_nil] at hb
    have hnarrow := (hwritten _ (hb ▸ hstyled) v {} _ (.refl v) hagain).2 fun hreplays =>
        hreplays.2 rfl
    exact ⟨s, v, hs, hl, hkeeps, hv, hagain, hstyled, hnarrow⟩

/-- A definite string of three bytes whose type has chunks of two: it is read as definite, keeps
    this style, and is written in chunks. -/
theorem Catalog.definite_string_is_cut :
    let c : Catalog := {
      declared := fun _ => {
        schema := (Schema.scalar .bytes).withChunkSize 2
        conversion := { keepsStyle := true } }
      printName := fun _ => "chunked" }
    let b : Bytes := [0x43, 0x01, 0x02, 0x03]
    let b' : Bytes := [0x5f, 0x42, 0x01, 0x02, 0x41, 0x03, 0xff]
    ∃ s v, c.resolve (.named "chunked") = .ok s ∧ s.length = .either ∧ s.kind = .scalar .bytes ∧
      c.KeepsStyle (.named "chunked") ∧ (c.codec.decode (.named "chunked") b).result = .ok v ∧
      (c.codec.encode v).result = .ok b' ∧ s.Styled {} b ∧ ¬ s.Styled {} b' := by
  intro c b b'
  have hs : ∃ s, c.resolve (.named "chunked") = .ok s ∧ s.length = .either ∧
      s.kind = .scalar .bytes := ⟨_, rfl, rfl, rfl⟩
  obtain ⟨s, hs, hl, hk⟩ := hs
  have hbare : s.Lead false [] := .bare (by simp [hk])
  have hstyled : ∀ {indefinite : Bool} {u : Bytes}, Framed indefinite u →
      s.Styled ⟨indefinite, false⟩ u :=
    fun hframed => (Shape.Styled.mk hbare hframed : s.Styled ⟨_, false⟩ ([] ++ _))
  have hdefinite : s.Styled {} b :=
    hstyled (headBytes_framed (m := .bytes) (by decide) 3 .minimal [0x01, 0x02, 0x03])
  have hindefinite : s.Styled ⟨true, false⟩ b' :=
    hstyled (indefiniteHead_framed (m := .bytes) rfl [0x42, 0x01, 0x02, 0x41, 0x03, 0xff])
  refine ⟨s, .node (.named "chunked") (.scalar (.bytes [1, 2, 3])) { emit := some {} }, hs, hl, hk,
    c.keepsStyle_named rfl, by cbv, by cbv, hdefinite, fun h => ?_⟩
  cases h.unique hindefinite

end CborSchema
