import CborSchema.Proofs.Raw.Spans
import CborSchema.Proofs.Roundtrip.Rebuilt

/-!
# Values read back

What is written for a value decodes to the same value, and this is written the same again.

* `Catalog.Reaches`, `Catalog.Complete` -- the types below a type, and what they have to satisfy;
* `Catalog.Clear`, `Catalog.Regular` -- what a value has to satisfy at every path;
* `trial_mismatch_of_complete` -- where all types resolve, a candidate that does not accept an item
  mismatches;
* `exists_image`, `exists_images` -- the values that are read for the parts of a value;
* `read_back` -- the induction on the nesting that is left to the writer;
* `Catalog.written_is_read_back` -- **a round trip loses nothing but the bytes kept and the style of
  the wire**.
-/

namespace CborSchema

open Decoder

variable {c : Catalog} {o : EncodeOptions} {o' : DecodeOptions}

/-! ## 1. The types below a type -/

/-- The types of which values may lie in a value of a type. -/
inductive Catalog.Reaches (c : Catalog) (t : TypeExpr) : TypeExpr → Prop where
  | refl : Reaches c t t
  | part {u u' : TypeExpr} {s : Shape} (h : Reaches c t u) (hs : c.resolve u = .ok s)
      (hp : u' ∈ s.partTypes) : Reaches c t u'

/-- All types below a type resolve, are built by their shapes, and order their keys by what these
    hold. -/
structure Catalog.Complete (c : Catalog) (t : TypeExpr) : Prop where
  resolves : ∀ u, c.Reaches t u → ∃ s, c.resolve u = .ok s
  default : ∀ name, c.Reaches t (.named name) → (c.declared name).conversion.Default
  order : ∀ key value, c.Reaches t (.map key value) → c.OrdersContents key

/-- Types that name no others are all that is reached from one of them. -/
theorem Catalog.Reaches.mem_of_closed {t u : TypeExpr} {ts : List TypeExpr} (hu : c.Reaches t u)
    (ht : t ∈ ts) (hts : ∀ u ∈ ts, ∃ s, c.resolve u = .ok s ∧ ∀ u' ∈ s.partTypes, u' ∈ ts) :
    u ∈ ts := by
  induction hu with
  | refl => exact ht
  | part _ hs hp ih =>
    obtain ⟨s, hs', hparts⟩ := hts _ ih
    obtain rfl := Except.ok.inj (hs'.symm.trans hs)
    exact hparts _ hp

theorem Catalog.Reaches.resolves_of_closed {t : TypeExpr} (ts : List TypeExpr) (ht : t ∈ ts)
    (hts : ∀ u ∈ ts, ∃ s, c.resolve u = .ok s ∧ ∀ u' ∈ s.partTypes, u' ∈ ts) :
    ∀ u, c.Reaches t u → ∃ s, c.resolve u = .ok s := by
  intro u hu
  obtain ⟨s, hs, _⟩ := hts u (hu.mem_of_closed ht hts)
  exact ⟨s, hs⟩

theorem Catalog.Complete.of_closed {t : TypeExpr} (ts : List TypeExpr) (ht : t ∈ ts)
    (hts : ∀ u ∈ ts, ∃ s, c.resolve u = .ok s ∧ ∀ u' ∈ s.partTypes, u' ∈ ts)
    (hdefault : ∀ name, .named name ∈ ts → (c.declared name).conversion.Default)
    (horder : ∀ key value, .map key value ∈ ts → c.OrdersContents key) : c.Complete t :=
  ⟨Reaches.resolves_of_closed ts ht hts, fun name hname =>
    hdefault name (hname.mem_of_closed ht hts),
    fun key value hmap => horder key value (hmap.mem_of_closed ht hts)⟩

/-- Neither is a faulty declaration. -/
def NoConfig (e f : DecodeError) : Prop := (∀ g, e ≠ .config g) ∧ ∀ g, f ≠ .config g

theorem noConfig_relation : ErrorRelation NoConfig where
  plain e he := by
    have hno : ∀ g, e ≠ .config g := by
      rintro g rfl
      cases he
    exact ⟨hno, hno⟩
  union name fs gs _ := ⟨fun _ => by simp, fun _ => by simp⟩
  config e f h g := ⟨fun he => absurd he (h.1 g), fun hf => absurd hf (h.2 g)⟩

/-- **Where all types resolve, no run ends with a faulty declaration.** -/
theorem read_noConfig {t u : TypeExpr} (hc : ∀ u, c.Reaches t u → ∃ s, c.resolve u = .ok s)
    (hu : c.Reaches t u) (depth : Nat) :
    Decoder.Alike NoConfig (c.codec.read o' depth u) (c.codec.read o' depth u) := by
  have hclosed : c.codec.ClosedUnder NoConfig (c.Reaches t) := by
    refine ⟨fun u s hu hs u' hu' => .part hu hs hu', fun u g hu hg => ?_⟩
    obtain ⟨s, hs⟩ := hc u hu
    have hs : c.codec.resolve u = .ok s := hs
    rw [hs] at hg
    cases hg
  have hdeep : NoConfig (.wire (.tooDeep o'.maxDepth)) (.wire (.tooDeep o'.maxDepth)) :=
    ⟨fun g => by simp, fun g => by simp⟩
  exact Codec.read_alike noConfig_relation hdeep ⟨rfl, rfl⟩ hclosed depth hu

/-- Where all types resolve, no trial of a candidate ends with a faulty declaration. -/
theorem candidate_noConfig {t u u' : TypeExpr} (hc : ∀ u, c.Reaches t u → ∃ s, c.resolve u = .ok s)
    (hu : c.Reaches t u) {s : Shape} (hs : c.resolve u = .ok s) (hu' : u' ∈ s.candidates)
    {depth : Nat} {x : Bytes} (hx : IsItem x) {e : DecodeError}
    (he : (((c.codec.reading o' depth).part u').whole x).result = .error e) :
    ∀ g, e ≠ .config g := by
  have halike : (c.codec.reading o' depth).Alike NoConfig s (c.codec.reading o' depth) :=
    ⟨rfl, rfl, rfl, fun u' hu' => read_noConfig hc (.part hu hs hu') depth⟩
  have hwhole := whole_alike halike (c.codec.sound o' depth) (Shape.candidate_mem hu') hx
  rw [he] at hwhole
  cases hwhole with
  | error h => exact h.1

theorem read_error_of_complete {t u : TypeExpr} (hc : c.Complete t) (hu : c.Reaches t u)
    (depth : Nat) {bytes : Bytes} {e : DecodeError}
    (he : (c.codec.read o' depth u bytes).result = .error e) : ∀ g, e ≠ .config g := by
  have hread : Decoder.Alike NoConfig (c.codec.read o' depth u) (c.codec.read o' depth u) :=
    read_noConfig hc.resolves hu depth
  have halike := hread bytes
  rw [he] at halike
  cases halike with
  | error h => exact h.1

/-- **A candidate that does not accept an item mismatches**, where all types resolve. -/
theorem trial_mismatch_of_complete {t u : TypeExpr} (hc : c.Complete t) (hu : c.Reaches t u)
    {depth : Nat} {span : Bytes} (h : ∀ y, c.codec.trial o' depth u span ≠ .ok y) :
    Mismatch (c.codec.trial o' depth u span) := by
  cases htrial : c.codec.trial o' depth u span with
  | ok y => exact absurd htrial (h y)
  | error e =>
    refine ⟨e, rfl, ?_⟩
    rw [Codec.trial, Codec.decode_finish] at htrial
    cases hread : (c.codec.read { o' with maxDepth := depth, allowTrailing := false } depth u
        span).result with
    | error e' =>
      rw [hread] at htrial
      cases htrial
      exact read_error_of_complete hc hu depth hread
    | ok p =>
      rw [hread] at htrial
      have htrial : DecodeOptions.finish _ p = .error e := htrial
      rw [DecodeOptions.finish] at htrial
      split at htrial
      · cases htrial
      · cases htrial
        simp

/-! ## 2. Values that are read back -/

/-- What is written for a value is not taken for another, read with that nesting left below it:

    * no candidate of a union declared before the one that was taken accepts its bytes;
    * no slot of a nullable field is written as null;
    * no two keys of a dynamic map are written as the same bytes. -/
structure Catalog.Clear (c : Catalog) (o : EncodeOptions) (o' : DecodeOptions) (depth : Nat)
    (v : Value) : Prop where
  candidates : ∀ s z, c.resolve v.type = .ok s → s.kind = .union → v.content = .variant z →
    ∀ n u, c.codec.WrittenTo o n z u → ∀ t ∈ s.candidates.takeWhile (· ≠ z.type),
      ∀ y, c.codec.trial o' depth t u ≠ .ok y
  slots : ∀ s slots, c.resolve v.type = .ok s → v.content = .fields slots →
    ∀ e ∈ alignFields s.fields slots, e.1.presence = .nullable →
      ∀ z, e.2 = some z → ∀ n, ¬ c.codec.WrittenTo o n z nullBytes
  keys : ∀ es, v.content = .entries es →
    es.Pairwise fun e e' => ∀ n u, c.codec.WrittenTo o n e.1 u → ¬ c.codec.WrittenTo o n e'.1 u

/-- At every path in a value stands one that its type can hold, and what is written for it is not
    taken for another; `depth` is the nesting that is left to the reader. -/
structure Catalog.Regular (c : Catalog) (o : EncodeOptions) (o' : DecodeOptions) (depth : Nat)
    (v : Value) : Prop where
  own : ∀ path y, v.at? path = some y → c.Own y
  clear : ∀ path y below, v.at? path = some y → depth = path.length + (below + 1) →
    c.Clear o o' below y

theorem Catalog.Regular.part {depth : Nat} {v z : Value} (h : c.Regular o o' (depth + 1) v)
    (hz : z ∈ v.content.parts) : c.Regular o o' depth z :=
  ⟨(Value.forall_at.mp h.own).2 z hz, (Value.forall_below.mp h.clear).2 z hz⟩

theorem Catalog.Regular.of_parts {depth : Nat} {v : Value} (hown : c.Own v)
    (hclear : c.Clear o o' depth v) (hparts : ∀ z ∈ v.content.parts, c.Regular o o' depth z) :
    c.Regular o o' (depth + 1) v :=
  ⟨Value.forall_at.mpr ⟨hown, fun z hz => (hparts z hz).own⟩,
    Value.forall_below.mpr ⟨hclear, fun z hz => (hparts z hz).clear⟩⟩

/-- A scalar holds nothing that could be taken for something else. -/
theorem Catalog.Regular.of_scalar {t : TypeExpr} {form : ScalarForm} {x : Scalar}
    (ht : t.form? = some form) (hx : form.Holds x) (depth : Nat) :
    c.Regular o o' (depth + 1) (.ofScalar t x) := by
  refine .of_parts (.scalar ht hx) ⟨fun s z _ _ hz => ?_, fun s slots _ hslots => ?_,
    fun es hes => ?_⟩
    fun z hz => ?_
  · cases hz
  · cases hslots
  · cases hes
  · cases hz

/-! ## 3. Parts -/

theorem takes_type {s : Shape} {take : Take} (h : take ∈ s.takes) : take.type ∈ s.partTypes := by
  rw [Shape.takes, Shape.fields] at h
  split at h
  · rename_i fields hl
    obtain ⟨f, hf, htake⟩ := List.mem_filterMap.mp h
    split at htake
    · rename_i type presence hb
      cases htake
      exact Shape.field_mem hl hf hb
    · cases htake
  · cases h

theorem slot_type {takes : List Take} {slots : List (Option Value)}
    (h : List.Forall₂ Take.Fits takes slots) {z : Value} (hz : z ∈ slots.filterMap id) :
    ∃ take ∈ takes, z.type = take.type := by
  induction h with
  | nil => cases hz
  | cons hfit _ ih =>
    rename_i take slot takes slots _
    cases slot with
    | none =>
      obtain ⟨take', htake', heq⟩ := ih hz
      exact ⟨take', List.mem_cons_of_mem _ htake', heq⟩
    | some y =>
      rcases List.mem_cons.mp hz with rfl | hz
      · exact ⟨take, List.mem_cons_self, hfit⟩
      · obtain ⟨take', htake', heq⟩ := ih hz
        exact ⟨take', List.mem_cons_of_mem _ htake', heq⟩

theorem Shape.ArrayAs.part_type {s : Shape} {w : Writing} {p : Pieces} {u : Bytes}
    (h : s.ArrayAs w p u) {z : Value} (hz : z ∈ p.content.parts) : z.type ∈ s.partTypes := by
  rcases h.holds with ⟨item, vs, hl, hc, hv⟩ | ⟨fields, slots, hl, hc, hfit⟩
  · rw [hc] at hz
    rw [hv z hz]
    exact item_mem hl
  · rw [hc] at hz
    obtain ⟨take, htake, heq⟩ := slot_type hfit hz
    exact heq ▸ takes_type htake

/-- **Each part of an item is of a type that its shape names.** -/
theorem Shape.KindAs.part_type {s : Shape} {w : Writing} {p : Pieces} {u : Bytes}
    (h : s.KindAs w p u) {z : Value} (hz : z ∈ p.content.parts) : z.type ∈ s.partTypes := by
  cases h with
  | scalar hk hc hx =>
    rw [hc] at hz
    cases hz
  | list hk h => exact h.part_type hz
  | map hk h =>
    rcases h.holds with ⟨key, value, es, hl, hc, he⟩ | ⟨fields, slots, hl, hc, hfit⟩
    · rw [hc] at hz
      obtain ⟨e, hmem, hz⟩ := List.mem_flatMap.mp hz
      obtain ⟨hkey, hvalue⟩ := entry_mem hl
      rcases List.mem_cons.mp hz with rfl | hz
      · rw [(he e hmem).1]
        exact hkey
      · rw [List.mem_singleton.mp hz, (he e hmem).2]
        exact hvalue
    · rw [hc] at hz
      obtain ⟨take, htake, heq⟩ := slot_type hfit hz
      exact heq ▸ takes_type htake
  | constructor hk h =>
    cases h with
    | mk hi h => exact h.part_type hz
  | union hk h =>
    cases h with
    | mk hc hm hv =>
      rw [hc] at hz
      rw [List.mem_singleton.mp hz]
      exact candidate_mem hm

theorem Codec.WriteAs.part_type {c : Codec} {n : Nat} {t : TypeExpr} {v : Value} {b : Bytes}
    (h : c.WriteAs o n t v b) (hr : v.notes.raw = none) {z : Value} (hz : z ∈ v.content.parts) :
    ∃ s, c.resolve t = .ok s ∧ z.type ∈ s.partTypes := by
  cases h with
  | replayed hs hp htype hraw =>
    rw [hr] at hraw
    cases hraw
  | taken hs hno hp hk =>
    rw [← pieces_parts hp] at hz
    exact ⟨_, hs, hk.part_type hz⟩

/-- What is found for each part by its bytes, as a function of the parts. A part has no more than
    one sequence of bytes, and one that has none stands for itself. -/
theorem exists_image {parts : List Value} {written : Value → Bytes → Prop}
    {Q : Value → Value → Prop} {P : Value → Bytes → Value → Prop}
    (hone : ∀ z x y, written z x → written z y → x = y) (hself : ∀ z, Q z z)
    (h : ∀ z ∈ parts, ∀ x, written z x → ∃ z', Q z z' ∧ P z x z') :
    ∃ g : Value → Value, (∀ z, Q z (g z)) ∧ ∀ z ∈ parts, ∀ x, written z x → P z x (g z) := by
  have himage : ∀ z, ∃ z', Q z z' ∧ (z ∈ parts → ∀ x, written z x → P z x z') := by
    intro z
    by_cases hz : z ∈ parts ∧ ∃ x, written z x
    · obtain ⟨hmem, x, hx⟩ := hz
      obtain ⟨z', hq, hp⟩ := h z hmem x hx
      exact ⟨z', hq, fun _ y hy => hone z x y hx hy ▸ hp⟩
    · exact ⟨z, hself z, fun hmem x hx => absurd ⟨hmem, x, hx⟩ hz⟩
  choose g hg using himage
  exact ⟨g, fun z => (hg z).1, fun z => (hg z).2⟩

/-- **The values that are read for the parts of a value**, as a function of the parts. -/
theorem exists_images {w : Writing} {r : Reading} {parts : List Value} {k : Nat}
    (h : ∀ z ∈ parts, ∀ x, x.length ≤ k → w.PartAs z.type z x →
      ∃ z', c.Same z z' ∧ r.PartAt z.type z' x ∧ w.PartAs z.type z' x) :
    ∃ g : Value → Value, (∀ z, c.Same z (g z)) ∧ ∀ z ∈ parts, Echoed w r g k z := by
  have hone : ∀ z x y, x.length ≤ k ∧ w.PartAs z.type z x → y.length ≤ k ∧ w.PartAs z.type z y →
      x = y := fun z x y hx hy => Except.ok.inj (hx.2.writes.symm.trans hy.2.writes)
  obtain ⟨g, hg, he⟩ := exists_image hone Catalog.Same.refl fun z hz x hx => h z hz x hx.1 hx.2
  refine ⟨g, hg, fun z hz t x hx hw => ?_⟩
  obtain rfl := hw.type
  exact he z hz x ⟨hx, hw⟩

/-! ## 4. One level -/

/-- What is clear of a value can be told apart when it is read. -/
theorem Catalog.Clear.legible {t : TypeExpr} (hc : c.Complete t) {n m : Nat} {v : Value}
    (ht : c.Reaches t v.type) (h : c.Clear o o' m v) {s : Shape} (hs : c.resolve v.type = .ok s)
    {u : Bytes} (hk : s.KindAs (c.codec.writing o n) v.asPieces u) {g : Value → Value}
    (he : ∀ z ∈ v.content.parts, Echoed (c.codec.writing o n) (c.codec.reading o' m) g u.length z) :
    s.Legible (c.codec.writing o n) (c.codec.reading o' m) v.content u := by
  have hwritten : ∀ {t z x}, (c.codec.writing o n).PartAs t z x → c.codec.WrittenTo o n z x := by
    rintro t z x ⟨hwrites, rfl⟩
    exact hwrites
  refine ⟨fun slots hslots e hmem hp z hz t hpart => ?_, fun es hes => ?_,
    fun hunion z hz t' ht' => ?_⟩
  · exact h.slots s slots hs hslots e hmem hp z hz n (hwritten hpart)
  · refine (h.keys es hes).imp fun hdiffer t x hx hx' => ?_
    exact hdiffer n x (hwritten hx) (hwritten hx')
  · cases hk with
    | union _ hu =>
      cases hu with
      | mk hcontent hm hv =>
        obtain rfl : z = _ := Content.variant.inj (hz.symm.trans hcontent)
        have hmem : t' ∈ s.candidates := (List.takeWhile_prefix _).subset ht'
        have hparts : z ∈ v.content.parts := by
          rw [hz]
          exact List.mem_singleton.mpr rfl
        have hitem : IsItem u := (he z hparts _ _ (Nat.le_refl _) hv).1.item
        have hno := h.candidates s z hs hunion hz n u (hwritten hv) t' ht'
        have hreached : c.Reaches t t' := .part ht hs (Shape.candidate_mem hmem)
        exact Codec.trial_mismatch hmem hitem (trial_mismatch_of_complete hc hreached hno)
    | scalar hk' _ _ => rw [hunion] at hk'; cases hk'
    | list hk' _ => rw [hunion] at hk'; cases hk'
    | map hk' _ => rw [hunion] at hk'; cases hk'
    | constructor hk' _ => rw [hunion] at hk'; cases hk'

/-- **One level of a round trip.** Where the parts of a value are read back as their images, so is
    the value. -/
theorem read_back_step {t : TypeExpr} (hc : c.Complete t) {n m : Nat} {v : Value} {b : Bytes}
    (ht : c.Reaches t v.type) (hown : c.Own v) (hclear : c.Clear o o' m v) {g : Value → Value}
    (hg : ∀ z, c.Same z (g z))
    (he : ∀ z ∈ v.content.parts, Echoed (c.codec.writing o n) (c.codec.reading o' m) g b.length z)
    (hroom : (c.codec.reading o' m).Roomy b.length) (hdepth : b.length ≤ m)
    (hw : c.codec.WriteAs o n v.type v b) :
    ∃ v', c.codec.ReadAt o' m v.type v' b ∧ c.Same v v' ∧ c.codec.WriteAs o n v.type v' b := by
  cases hw with
  | replayed hs hp htype hr =>
    rw [hown.raw] at hr
    cases hr
  | taken hs hr hp hk =>
    rename_i s p u
    have hs : c.resolve v.type = .ok s := hs
    have hpieces := pieces_of_forWriting (c := c) fun x hx => hown.forWriting hs hp hk hx
    obtain rfl : p = v.asPieces := Except.ok.inj (hp.symm.trans hpieces)
    have hle : u.length ≤ (s.tagBefore v.asPieces.style ++ u).length := by
      rw [List.length_append]
      omega
    have he' := fun z hz => (he z hz).mono hle
    have hlegible := hclear.legible hc ht hs hk he'
    obtain ⟨parts, hkept, hmirror, hraw, hstyle⟩ :=
      hk.readKept (resolve_check hs).1 he' (hroom.mono hle) (Nat.le_trans hle hdepth) hlegible
    obtain ⟨v', hv', hrebuilt⟩ := hown.rebuilt (fun name hname => hc.default name (hname ▸ ht))
      (fun key value hmap => hc.order key value (hmap ▸ ht)) hs hk hg hmirror.content
      hmirror.alternative hmirror.framing
    have hbuilt := construct_built hv'
    have hindex := hown.indexOf_eq hs hbuilt.type (hrebuilt.alternative.trans hmirror.alternative)
    refine ⟨v', .mk hs hkept hv', Catalog.same_of_parts hbuilt.type hindex hrebuilt.content
      fun z _ => hg z, ?_⟩
    by_cases hp' : s.preserveRaw = true
    · have hraw' := hbuilt.raw (resolve_preserveRaw hs hp')
      exact .replayed hs hp' hbuilt.type (hraw'.trans (hraw hp'))
    · obtain ⟨hbefore, hrepeats⟩ := hstyle v'.notes.emit hrebuilt.emit
      have hwriting : ∀ x, v'.content = .scalar x → x.forWriting = .ok x := by
        intro x hx
        rw [hrebuilt.content] at hx
        exact hown.forWriting hs hp hk (Content.eq_scalar_of_map hx)
      have hpieces' : c.pieces v.type v' = .ok v'.asPieces := by
        rw [← hbuilt.type]
        exact pieces_of_forWriting hwriting
      have hagain := hmirror.again v'.asPieces hrebuilt.content hrebuilt.alternative hrepeats
      have hwritten := Codec.WriteAs.taken (o := o) (c := c.codec) hs (fun hno => absurd hno hp')
        hpieces' hagain
      rwa [show s.tagBefore v'.asPieces.style = s.tagBefore v.asPieces.style from
        hbefore] at hwritten

/-! ## 5. Round trips -/

/-- **What is written is read back**, by induction on the nesting that is left to the writer. The
    reader has as many levels more as there are bytes, for items it looks at before it reads
    them. -/
theorem read_back {t : TypeExpr} (hc : c.Complete t) {n m : Nat} {v : Value} {b : Bytes}
    (ht : c.Reaches t v.type) (hv : c.Regular o o' m v)
    (hroom : (c.codec.reading o' m).Roomy b.length) (hdepth : n + b.length ≤ m)
    (hb : c.codec.WrittenTo o n v b) : ∃ v', (c.codec.read o' m v.type).Reads b v' ∧ c.Same v v' ∧
      (c.codec.write o n v.type v').result = .ok b := by
  induction n generalizing m v b with
  | zero => exact absurd hb Codec.not_writes_zero
  | succ n ih =>
    obtain ⟨m, rfl⟩ : ∃ m', m = m' + 1 := ⟨m - 1, by omega⟩
    have hw := Codec.write_eq_ok.mp hb
    have hown := hv.own [] v rfl
    have hclear := hv.clear [] v m rfl (by rw [List.length_nil, Nat.zero_add])
    have hparts : ∀ z ∈ v.content.parts, ∀ x, x.length ≤ b.length →
        (c.codec.writing o n).PartAs z.type z x → ∃ z', c.Same z z' ∧
          (c.codec.reading o' m).PartAt z.type z' x ∧ (c.codec.writing o n).PartAs z.type z' x := by
      intro z hz x hx hpart
      obtain ⟨s, hs, hmem⟩ := hw.part_type hown.raw hz
      have hroom' : (c.codec.reading o' m).Roomy x.length :=
        ⟨Nat.le_trans hx hroom.string, Nat.le_trans hx hroom.collection⟩
      obtain ⟨z', hread, hsame, hagain⟩ :=
        ih (.part ht hs hmem) (hv.part hz) hroom' (by omega) hpart.writes
      obtain ⟨_, hpartAt⟩ := (c.codec.read_partAt o' m z.type).whole hread.whole
      exact ⟨z', hsame, hpartAt, hagain, hpartAt.type⟩
    obtain ⟨g, hg, he⟩ := exists_images hparts
    obtain ⟨v', hread, hsame, hagain⟩ :=
      read_back_step hc ht hown hclear hg he ⟨hroom.string, hroom.collection⟩ (by omega) hw
    exact ⟨v', Codec.read_reads hread, hsame, Codec.write_eq_ok.mpr hagain⟩

/-- **A round trip loses nothing but the bytes kept and the style of the wire.** Let all types below
    a type resolve, be built by their shapes, and order their keys by what these hold. Let a value
    of the type be one that it can hold at every path, with no bytes kept, and let what is written
    for it nowhere be taken for another. If it encodes, whatever the options, then with limits that
    hold the bytes written the bytes decode to a value that is the same at every path, and this
    encodes to the same bytes again. -/
theorem Catalog.written_is_read_back (c : Catalog) (t : TypeExpr) (hc : c.Complete t)
    (o : EncodeOptions) (o' : DecodeOptions) (v : Value) (ht : v.type = t)
    (hv : c.Regular o o' o'.maxDepth v) (b : Bytes) (hb : (c.codec.encode v o).result = .ok b)
    (hdepth : o.maxDepth + b.length ≤ o'.maxDepth)
    (hstring : b.length ≤ o'.maxStringLength.toNat)
    (hcollection : b.length ≤ o'.maxCollectionLength.toNat) :
    ∃ v', (c.codec.decode t b o').result = .ok v' ∧ c.Same v v' ∧
      (c.codec.encode v' o).result = .ok b := by
  subst ht
  obtain ⟨v', hread, hsame, hagain⟩ := read_back hc .refl hv ⟨hstring, hcollection⟩ hdepth hb
  refine ⟨v', Codec.decode_eq_ok.mpr ⟨b, [], (List.append_nil b).symm, .inr rfl, hread⟩, hsame, ?_⟩
  rw [Codec.encode, hsame.type_eq]
  exact hagain

/-- A map to constructors that carry no index: each is read with the index of its type, and written
    under the same tag. -/
theorem Catalog.constructor_is_read_back :
    let c : Catalog := {
      declared := fun _ => {
        schema := ((Schema.constructor 1).withValue (.int 0) .uint64 .required).withValue
          (.int 1) .text
          .nullable }
      printName := fun _ => "entry" }
    let entry : Value := .node (.named "entry")
      (.fields [some (.ofScalar .uint64 (.uint 5)), some (.ofScalar .text (.text "a"))]) {}
    let v : Value := .node (.map .uint64 (.named "entry"))
      (.entries [(.ofScalar .uint64 (.uint 7), entry)]) {}
    let b : Bytes := [0xa1, 0x07, 0xd8, 0x7a, 0x82, 0x05, 0x61, 0x61]
    (c.codec.encode v).result = .ok b ∧
      ∃ v', (c.codec.decode (.map .uint64 (.named "entry")) b { maxDepth := 300 }).result = .ok v' ∧
        c.Same v v' ∧ (c.codec.encode v').result = .ok b := by
  intro c entry v b
  have hcomplete : c.Complete (.map .uint64 (.named "entry")) := by
    refine .of_closed [.map .uint64 (.named "entry"), .uint64, .named "entry", .text]
      List.mem_cons_self ?_ (fun name _ => ⟨rfl, rfl⟩) fun key value _ a a' b b' ha hb => ?_
    · simp only [List.forall_mem_cons]
      refine ⟨⟨_, rfl, ?_⟩, ⟨_, rfl, ?_⟩, ⟨_, rfl, ?_⟩, ⟨_, rfl, ?_⟩, by simp⟩ <;> decide
    · exact Catalog.compareScalars_same ha hb
  have hnull : ∀ n, ¬ c.codec.WrittenTo {} n (.ofScalar .text (.text "a")) nullBytes := by
    intro n h
    cases n with
    | zero => exact Codec.not_writes_zero h
    | succ n =>
      have hbytes : c.codec.WrittenTo {} (n + 1) (.ofScalar .text (.text "a")) [0x61, 0x61] := rfl
      cases Except.ok.inj (h.symm.trans hbytes)
  have hentry : c.Regular {} { maxDepth := 300 } 299 entry := by
    refine .of_parts (.named rfl rfl (fun _ _ _ h => (by cases h)) (absurd rfl) (.inl rfl))
      ⟨fun s z _ _ hz => (by cases hz), fun s slots hs hslots e he hp z hz => ?_,
        fun es hes => (by cases hes)⟩ fun z hz => ?_
    · cases hs
      cases hslots
      rcases List.mem_cons.mp he with rfl | he
      · cases hp
      · obtain rfl := List.mem_singleton.mp he
        cases hz
        exact hnull
    · rcases List.mem_cons.mp hz with rfl | hz
      · exact .of_scalar rfl (.uint64 5) _
      · obtain rfl := List.mem_singleton.mp hz
        exact .of_scalar rfl (.text "a") _
  have hv : c.Regular {} { maxDepth := 300 } 300 v := by
    refine .of_parts (.map (List.pairwise_singleton _ _))
      ⟨fun s z _ _ hz => (by cases hz), fun s slots _ hslots => (by cases hslots), fun es hes => ?_⟩
      fun z hz => ?_
    · cases hes
      exact List.pairwise_singleton _ _
    · rcases List.mem_cons.mp hz with rfl | hz
      · exact .of_scalar rfl (.uint64 7) _
      · obtain rfl := List.mem_singleton.mp hz
        exact hentry
  have hencode : (c.codec.encode v).result = .ok b := by cbv
  exact ⟨hencode, c.written_is_read_back _ hcomplete {} { maxDepth := 300 } v rfl hv b hencode
    (by decide) (by decide) (by decide)⟩

end CborSchema
