import CborSchema.Proofs.Decode.Elements
import CborSchema.Proofs.Decode.Unique
import CborSchema.Proofs.Roundtrip.Parts

/-!
# Trees of items

What an item is, apart from how it is written: the widths of its heads, the framing of its arrays,
maps and strings, and the chunks of its strings.

* `Tree`, `Tree.Spelled` -- an item, and the bytes that spell it;
* `Rows` -- pieces in a row on either side, two by two;
* `Respelled` -- two byte strings that spell one tree;
* `Respelled.behind` -- their heads are of one major type, and what stands behind the heads is told
  by it;
* `Respelled.item` -- **items that spell one tree nest as many levels.**
-/

namespace CborSchema

open Decoder

/-! ## 1. Trees -/

/-- An item, apart from how it is written. -/
inductive Tree where
  | unsigned (n : UInt64)
  | negative (n : UInt64)
  | bytes (payload : Bytes)
  | text (payload : Bytes)
  | array (items : List Tree)
  | map (entries : List (Tree × Tree))
  | tagged (number : UInt64) (content : Tree)
  /-- A simple value or a float; there is one way to write it. -/
  | simple (bytes : Bytes)

/-- The major type of an item. -/
def Tree.major : Tree → Major
  | .unsigned _ => .unsigned
  | .negative _ => .negative
  | .bytes _ => .bytes
  | .text _ => .text
  | .array _ => .array
  | .map _ => .map
  | .tagged _ _ => .tag
  | .simple _ => .simple

/-- If the tree is a pair of an index and something else, its bytes announce two elements. -/
def Tree.PairCounted (t : Tree) (bytes : Bytes) : Prop :=
  ∀ index fields, t = .array [.unsigned index, fields] → ∃ h, StartsHead h bytes ∧ h.arg = some 2

/-- The bytes spell the tree. No array or map in it has more than `max` elements, and the pair of a
    constructor behind its general tag has no break. -/
inductive Tree.Spelled (max : UInt64) : Tree → Bytes → Prop where
  | unsigned {n : UInt64} {h : Head} {front : Bytes} (hh : h.Spelled front)
      (hm : h.major = .unsigned) (ha : h.arg = some n) : Spelled max (.unsigned n) front
  | negative {n : UInt64} {h : Head} {front : Bytes} (hh : h.Spelled front)
      (hm : h.major = .negative) (ha : h.arg = some n) : Spelled max (.negative n) front
  | bytes {payload : Bytes} {h : Head} {front u : Bytes} (hh : h.Spelled front)
      (hm : h.major = .bytes) (hp : h.Payload largestLength payload u) :
      Spelled max (.bytes payload) (front ++ u)
  | text {payload : Bytes} {h : Head} {front u : Bytes} (hh : h.Spelled front)
      (hm : h.major = .text) (hp : h.Payload largestLength payload u) :
      Spelled max (.text payload) (front ++ u)
  | array {items : List Tree} {h : Head} {front inner u : Bytes} (hh : h.Spelled front)
      (hm : h.major = .array) (hb : h.pending.Body items.length inner u)
      (hmax : items.length ≤ max.toNat) (hs : Row (Spelled max) items inner) :
      Spelled max (.array items) (front ++ u)
  | map {entries : List (Tree × Tree)} {h : Head} {front inner u : Bytes} (hh : h.Spelled front)
      (hm : h.major = .map) (hb : h.pending.Body entries.length inner u)
      (hmax : entries.length ≤ max.toNat)
      (hs : Row (Spelled max) (entries.flatMap fun e => [e.1, e.2]) inner) :
      Spelled max (.map entries) (front ++ u)
  | tagged {number : UInt64} {content : Tree} {h : Head} {front u : Bytes} (hh : h.Spelled front)
      (hm : h.major = .tag) (ha : h.arg = some number) (hc : Spelled max content u)
      (hpair : number = Tag.general → content.PairCounted u) :
      Spelled max (.tagged number content) (front ++ u)
  | simple {h : Head} {front : Bytes} (hh : h.Spelled front) (hm : h.major = .simple)
      (ha : h.arg ≠ none) : Spelled max (.simple front) front

variable {max : UInt64}

theorem length_flatMap_pair {α : Type} (entries : List (α × α)) :
    (entries.flatMap fun e => [e.1, e.2]).length = entries.length * 2 := by
  induction entries with
  | nil => rfl
  | cons e es ih =>
    simp only [List.flatMap_cons, List.length_append, List.length_cons, List.length_nil, ih]
    omega

theorem Pending.Body.length_le {e : Pending} {k : Nat} {inner u : Bytes} (h : e.Body k inner u) :
    inner.length ≤ u.length := by
  obtain ⟨w, rfl⟩ := h.behind
  rw [List.length_append]
  omega

/-- **What spells a tree is one item**, by induction on the number of its bytes. -/
theorem Tree.Spelled.isItem {t : Tree} {bytes : Bytes} (h : t.Spelled max bytes) :
    IsItem bytes := by
  induction hn : bytes.length using Nat.strong_induction_on generalizing t bytes with
  | _ n ih =>
    have inner : ∀ {front u inner : Bytes} {ts : List Tree}, front ≠ [] →
        (front ++ u).length = n → inner.length ≤ u.length → Row (Spelled max) ts inner →
        InRow IsItem ts.length inner := by
      intro front u inner ts hfront hlen hle hs
      have hpos := List.length_pos_iff.mpr hfront
      rw [List.length_append] at hlen
      refine (hs.length_le.mono fun t x hx => ?_).inRow fun _ _ hx => hx
      have hx' := hx.1
      exact ih x.length (by omega) hx.2 rfl
    cases h with
    | unsigned hh hm ha => exact (ItemOf.plain hh (by simp [ha]) (.inl hm)).isItem
    | negative hh hm ha => exact (ItemOf.plain hh (by simp [ha]) (.inr (.inl hm))).isItem
    | bytes hh hm hp => exact (ItemOf.string hh (.inl hm) hp).isItem
    | text hh hm hp => exact (ItemOf.string hh (.inr hm) hp).isItem
    | array hh hm hb hmax hs =>
      have hrow := inner hh.ne_nil hn hb.length_le hs
      rw [← Nat.mul_one (List.length _)] at hrow
      exact (ItemOf.of_body hh (by rw [hm]; rfl) hb hrow).isItem
    | map hh hm hb hmax hs =>
      have hrow := inner hh.ne_nil hn hb.length_le hs
      rw [length_flatMap_pair] at hrow
      exact (ItemOf.of_body hh (by rw [hm]; rfl) hb hrow).isItem
    | tagged hh hm ha hc hpair =>
      have hpos := List.length_pos_iff.mpr hh.ne_nil
      rw [List.length_append] at hn
      exact (ItemOf.tagged hh hm (ih _ (by omega) hc rfl)).isItem
    | simple hh hm ha => exact (ItemOf.plain hh ha (.inr (.inr hm))).isItem

theorem Tree.Spelled.startsHead {t : Tree} {bytes : Bytes} (h : t.Spelled max bytes) :
    ∃ head, StartsHead head bytes ∧ head.major = t.major := by
  cases h with
  | unsigned hh hm ha => exact ⟨_, ⟨bytes, [], (List.append_nil _).symm, hh⟩, hm⟩
  | negative hh hm ha => exact ⟨_, ⟨bytes, [], (List.append_nil _).symm, hh⟩, hm⟩
  | bytes hh hm hp => exact ⟨_, hh.starts _, hm⟩
  | text hh hm hp => exact ⟨_, hh.starts _, hm⟩
  | array hh hm hb hmax hs => exact ⟨_, hh.starts _, hm⟩
  | map hh hm hb hmax hs => exact ⟨_, hh.starts _, hm⟩
  | tagged hh hm ha hc hpair => exact ⟨_, hh.starts _, hm⟩
  | simple hh hm ha => exact ⟨_, ⟨bytes, [], (List.append_nil _).symm, hh⟩, hm⟩

/-- The head in front of bytes that spell a tree is of the major type of the tree. -/
theorem Tree.Spelled.major_eq {t : Tree} {h : Head} {front u : Bytes}
    (ht : t.Spelled max (front ++ u)) (hh : h.Spelled front) : t.major = h.major := by
  obtain ⟨head, hstart, hmajor⟩ := ht.startsHead
  obtain rfl := hstart.unique (hh.starts u)
  exact hmajor.symm

/-! ## 2. Rows side by side -/

/-- So many pieces in a row on either side, two by two. -/
inductive Rows (R : Bytes → Bytes → Prop) : Nat → Bytes → Bytes → Prop where
  | nil : Rows R 0 [] []
  | cons {x y : Bytes} {k : Nat} {u w : Bytes} (hx : R x y) (hs : Rows R k u w) :
      Rows R (k + 1) (x ++ u) (y ++ w)

namespace Rows

variable {R : Bytes → Bytes → Prop}

theorem of_rows {α : Type} {Q : α → Bytes → Prop} {as : List α} {u w : Bytes} (hu : Row Q as u)
    (hw : Row Q as w) : Rows (fun x y => ∃ a, Q a x ∧ Q a y) as.length u w := by
  induction hu generalizing w with
  | nil =>
    cases hw
    exact .nil
  | cons hx _ ih =>
    cases hw with
    | cons hy hs => exact .cons ⟨_, hx, hy⟩ (ih hs)

/-- **An item in front is the first on its side.** -/
theorem uncons (hR : ∀ x y, R x y → IsItem x) {k : Nat} {x u w : Bytes} (hx : IsItem x)
    (h : Rows R k (x ++ u) w) : ∃ j y w', k = j + 1 ∧ w = y ++ w' ∧ R x y ∧ Rows R j u w' := by
  generalize hxu : x ++ u = z at h
  cases h with
  | nil => exact absurd (List.append_eq_nil_iff.mp hxu).1 hx.ne_nil
  | cons hy hs =>
    obtain ⟨rfl, rfl⟩ := hx.cancel (hR _ _ hy) hxu
    exact ⟨_, _, _, rfl, rfl, hy, hs⟩

theorem of_nil (hR : ∀ x y, R x y → IsItem x) {k : Nat} {w : Bytes} (h : Rows R k [] w) :
    k = 0 ∧ w = [] := by
  generalize hu : ([] : Bytes) = u at h
  cases h with
  | nil => exact ⟨rfl, rfl⟩
  | cons hx _ => exact absurd (List.append_eq_nil_iff.mp hu.symm).1 (hR _ _ hx).ne_nil

/-- What holds of each piece on one side holds of each on the other. -/
theorem inRow {Q Q' : Bytes → Prop} (hR : ∀ x y, R x y → IsItem x) (hQ : ∀ x, Q x → IsItem x)
    (hQR : ∀ x y, Q x → R x y → Q' y) {j k : Nat} {u w : Bytes} (hs : InRow Q j u)
    (h : Rows R k u w) : j = k ∧ InRow Q' j w := by
  induction hs generalizing k w with
  | nil =>
    obtain ⟨rfl, rfl⟩ := h.of_nil hR
    exact ⟨rfl, .nil⟩
  | cons hx _ ih =>
    obtain ⟨k, y, w, rfl, rfl, hy, hs⟩ := h.uncons hR (hQ _ hx)
    obtain ⟨rfl, hrow⟩ := ih hs
    exact ⟨rfl, .cons (hQR _ _ hx hy) hrow⟩

end Rows

/-! ## 3. Two spellings of one tree -/

/-- Two byte strings that spell one tree. -/
def Respelled (max : UInt64) (u w : Bytes) : Prop := ∃ t : Tree, t.Spelled max u ∧ t.Spelled max w

namespace Respelled

variable {u w front : Bytes} {h h' : Head}

theorem symm (hr : Respelled max u w) : Respelled max w u := by
  obtain ⟨t, hu, hw⟩ := hr
  exact ⟨t, hw, hu⟩

theorem left (hr : Respelled max u w) : IsItem u := by
  obtain ⟨t, hu, _⟩ := hr
  exact hu.isItem

theorem right (hr : Respelled max u w) : IsItem w := hr.symm.left

/-- What stands behind two heads that announce as many elements, each of so many items. -/
def Elements (max : UInt64) (width : Nat) (h h' : Head) (u w : Bytes) : Prop :=
  ∃ k inner inner', h.pending.Body k inner u ∧ h'.pending.Body k inner' w ∧ k ≤ max.toNat ∧
    Rows (Respelled max) (k * width) inner inner'

/-- What stands behind two heads of one major type that start two spellings of one tree. -/
def Behind (max : UInt64) (h h' : Head) (u w : Bytes) : Prop :=
  match h.major with
  | .unsigned | .negative => h'.arg = h.arg ∧ u = [] ∧ w = []
  | .bytes | .text =>
    ∃ payload, h.Payload largestLength payload u ∧ h'.Payload largestLength payload w
  | .array => Elements max 1 h h' u w
  | .map => Elements max 2 h h' u w
  | .tag => h'.arg = h.arg ∧ ∃ content : Tree, content.Spelled max u ∧ content.Spelled max w ∧
      (h.arg = some Tag.general → content.PairCounted w)
  | .simple => u = [] ∧ w = []

/-- **Two spellings of one tree start with heads of one major type**, and a simple value has one
    spelling. -/
theorem behind (hr : Respelled max (front ++ u) w) (hh : h.Spelled front) :
    ∃ h' front' w', w = front' ++ w' ∧ h'.Spelled front' ∧ h'.major = h.major ∧
      Behind max h h' u w' ∧ (h.major = .simple → front' = front) := by
  obtain ⟨t, hu, hw⟩ := hr
  generalize hx : front ++ u = x at hu
  have whole : ∀ {y : Bytes}, front ++ u = y → front ++ u = y ++ [] := fun e => by
    rw [e, List.append_nil]
  cases hu with
  | unsigned hh₁ hm₁ ha₁ =>
    obtain ⟨rfl, rfl, rfl⟩ := hh.cancel hh₁ (whole hx)
    cases hw with
    | unsigned hh₂ hm₂ ha₂ =>
      refine ⟨_, w, [], (List.append_nil w).symm, hh₂, hm₂.trans hm₁.symm, ?_, by simp [hm₁]⟩
      rw [Behind, hm₁]
      exact ⟨ha₂.trans ha₁.symm, rfl, rfl⟩
  | negative hh₁ hm₁ ha₁ =>
    obtain ⟨rfl, rfl, rfl⟩ := hh.cancel hh₁ (whole hx)
    cases hw with
    | negative hh₂ hm₂ ha₂ =>
      refine ⟨_, w, [], (List.append_nil w).symm, hh₂, hm₂.trans hm₁.symm, ?_, by simp [hm₁]⟩
      rw [Behind, hm₁]
      exact ⟨ha₂.trans ha₁.symm, rfl, rfl⟩
  | bytes hh₁ hm₁ hp₁ =>
    obtain ⟨rfl, rfl, rfl⟩ := hh.cancel hh₁ hx
    cases hw with
    | bytes hh₂ hm₂ hp₂ =>
      refine ⟨_, _, _, rfl, hh₂, hm₂.trans hm₁.symm, ?_, by simp [hm₁]⟩
      rw [Behind, hm₁]
      exact ⟨_, hp₁, hp₂⟩
  | text hh₁ hm₁ hp₁ =>
    obtain ⟨rfl, rfl, rfl⟩ := hh.cancel hh₁ hx
    cases hw with
    | text hh₂ hm₂ hp₂ =>
      refine ⟨_, _, _, rfl, hh₂, hm₂.trans hm₁.symm, ?_, by simp [hm₁]⟩
      rw [Behind, hm₁]
      exact ⟨_, hp₁, hp₂⟩
  | array hh₁ hm₁ hb₁ hmax hs₁ =>
    obtain ⟨rfl, rfl, rfl⟩ := hh.cancel hh₁ hx
    cases hw with
    | array hh₂ hm₂ hb₂ _ hs₂ =>
      refine ⟨_, _, _, rfl, hh₂, hm₂.trans hm₁.symm, ?_, by simp [hm₁]⟩
      have hrows := Rows.of_rows hs₁ hs₂
      rw [Behind, hm₁]
      exact ⟨_, _, _, hb₁, hb₂, hmax, by rwa [Nat.mul_one]⟩
  | map hh₁ hm₁ hb₁ hmax hs₁ =>
    obtain ⟨rfl, rfl, rfl⟩ := hh.cancel hh₁ hx
    cases hw with
    | map hh₂ hm₂ hb₂ _ hs₂ =>
      refine ⟨_, _, _, rfl, hh₂, hm₂.trans hm₁.symm, ?_, by simp [hm₁]⟩
      have hrows := Rows.of_rows hs₁ hs₂
      rw [length_flatMap_pair] at hrows
      rw [Behind, hm₁]
      exact ⟨_, _, _, hb₁, hb₂, hmax, hrows⟩
  | tagged hh₁ hm₁ ha₁ hc₁ _ =>
    obtain ⟨rfl, rfl, rfl⟩ := hh.cancel hh₁ hx
    cases hw with
    | tagged hh₂ hm₂ ha₂ hc₂ hpair =>
      refine ⟨_, _, _, rfl, hh₂, hm₂.trans hm₁.symm, ?_, by simp [hm₁]⟩
      rw [Behind, hm₁]
      refine ⟨ha₂.trans ha₁.symm, _, hc₁, hc₂, fun hgeneral => hpair ?_⟩
      exact Option.some.inj (ha₁.symm.trans hgeneral)
  | simple hh₁ hm₁ ha₁ =>
    obtain ⟨rfl, rfl, rfl⟩ := hh.cancel hh₁ (whole hx)
    cases hw with
    | simple =>
      refine ⟨h, _, [], (List.append_nil _).symm, hh, rfl, ?_, fun _ => rfl⟩
      rw [Behind, hm₁]
      exact ⟨rfl, rfl⟩

/-- Two spellings of an integer differ in the width of the head. -/
theorem number (hr : Respelled max (front ++ u) w) (hh : h.Spelled front)
    (hm : h.major = .unsigned ∨ h.major = .negative) :
    u = [] ∧ ∃ h' : Head, h'.Spelled w ∧ h'.major = h.major ∧ h'.arg = h.arg := by
  obtain ⟨h', front', w', rfl, hh', hmajor, hbehind, _⟩ := hr.behind hh
  have hnumber : h'.arg = h.arg ∧ u = [] ∧ w' = [] := by
    rw [Behind] at hbehind
    rcases hm with hm | hm
    · rwa [hm] at hbehind
    · rwa [hm] at hbehind
  obtain ⟨harg, rfl, rfl⟩ := hnumber
  rw [List.append_nil]
  exact ⟨rfl, h', hh', hmajor, harg⟩

theorem simple (hr : Respelled max (front ++ u) w) (hh : h.Spelled front) (hm : h.major = .simple) :
    w = front ++ u := by
  obtain ⟨h', front', w', rfl, _, _, hbehind, hsame⟩ := hr.behind hh
  rw [Behind, hm] at hbehind
  obtain ⟨rfl, rfl⟩ := hbehind
  rw [hsame hm]

/-- Two spellings of a string hold one payload. -/
theorem string (hr : Respelled max (front ++ u) w) (hh : h.Spelled front)
    (hm : h.major = .bytes ∨ h.major = .text) :
    ∃ (payload : Bytes) (h' : Head) (front' w' : Bytes), w = front' ++ w' ∧ h'.Spelled front' ∧
      h'.major = h.major ∧
      h.Payload largestLength payload u ∧ h'.Payload largestLength payload w' := by
  obtain ⟨h', front', w', rfl, hh', hmajor, hbehind, _⟩ := hr.behind hh
  have hstring : ∃ payload, h.Payload largestLength payload u ∧
      h'.Payload largestLength payload w' := by
    rw [Behind] at hbehind
    rcases hm with hm | hm
    · rwa [hm] at hbehind
    · rwa [hm] at hbehind
  obtain ⟨payload, hp, hp'⟩ := hstring
  exact ⟨payload, h', front', w', rfl, hh', hmajor, hp, hp'⟩

/-- Two spellings of an array or a map have as many elements. -/
theorem collection (hr : Respelled max (front ++ u) w) (hh : h.Spelled front) {width : Nat}
    (hm : h.major.perElement = some width) : ∃ h' front' w', w = front' ++ w' ∧ h'.Spelled front' ∧
      h'.major = h.major ∧ Elements max width h h' u w' := by
  obtain ⟨h', front', w', rfl, hh', hmajor, hbehind, _⟩ := hr.behind hh
  refine ⟨h', front', w', rfl, hh', hmajor, ?_⟩
  rw [Behind] at hbehind
  cases hmaj : h.major with
  | array =>
    rw [hmaj] at hm hbehind
    cases hm
    exact hbehind
  | map =>
    rw [hmaj] at hm hbehind
    cases hm
    exact hbehind
  | _ =>
    rw [hmaj] at hm
    cases hm

/-- Two spellings of a tagged item have one tag. -/
theorem tagged (hr : Respelled max (front ++ u) w) (hh : h.Spelled front) (hm : h.major = .tag) :
    ∃ (h' : Head) (front' w' : Bytes), w = front' ++ w' ∧ h'.Spelled front' ∧ h'.major = .tag ∧
      h'.arg = h.arg ∧
      Respelled max u w' := by
  obtain ⟨h', front', w', rfl, hh', hmajor, hbehind, _⟩ := hr.behind hh
  rw [Behind, hm] at hbehind
  obtain ⟨harg, content, hu, hw, _⟩ := hbehind
  exact ⟨h', front', w', rfl, hh', hmajor.trans hm, harg, content, hu, hw⟩

theorem startsHead (hr : Respelled max u w) (hu : StartsHead h u) :
    ∃ h', StartsHead h' w ∧ h'.major = h.major := by
  obtain ⟨front, tail, rfl, hh⟩ := hu
  obtain ⟨h', front', w', rfl, hh', hmajor, _⟩ := hr.behind hh
  exact ⟨h', hh'.starts w', hmajor⟩

/-- Bytes that announce two elements, an index and then an item, spell a pair. -/
theorem pair_of_spelled {t : Tree} {p i : Head} {second third : Bytes} {index : UInt64}
    (ht : t.Spelled max (second ++ (third ++ u))) (hp : p.Spelled second) (hpm : p.major = .array)
    (hpa : p.arg = some 2) (hi : i.Spelled third) (him : i.major = .unsigned)
    (hia : i.arg = some index) :
    ∃ fields : Tree, t = .array [.unsigned index, fields] ∧ fields.Spelled max u := by
  have hmajor := (ht.major_eq hp).trans hpm
  generalize hx : second ++ (third ++ u) = x at ht
  cases ht with
  | array hh hm hb hmax hs =>
    rename_i items h front inner rest
    obtain ⟨rfl, rfl, rfl⟩ := hp.cancel hh hx
    rw [Head.pending, hpa] at hb
    generalize hcount : items.length = count at hb
    cases hb
    obtain ⟨a, b, rfl⟩ := List.length_eq_two.mp hcount
    generalize hinner : third ++ u = z at hs
    cases hs with
    | cons ha hs =>
      cases hs with
      | cons hb hs =>
        cases hs
        rw [List.append_nil] at hinner
        have hthird : IsItem third := (ItemOf.plain hi (by simp [hia]) (.inl him)).isItem
        obtain ⟨rfl, rfl⟩ := hthird.cancel ha.isItem hinner
        rw [← List.append_nil third] at ha
        have hindex := (ha.major_eq hi).trans him
        rw [List.append_nil] at ha
        cases ha with
        | unsigned hh' hm' ha' =>
          obtain rfl := hi.unique hh'
          obtain rfl := Option.some.inj (hia.symm.trans ha')
          exact ⟨b, rfl, hb⟩
        | _ => cases hindex
  | _ => cases hmajor

/-- **Two spellings of the pair behind the general tag start with the same index.** -/
theorem pair {p i : Head} {second third : Bytes} {index : UInt64}
    (hr : Respelled max (front ++ (second ++ (third ++ u))) w) (hh : h.Spelled front)
    (hm : h.major = .tag) (ha : h.arg = some Tag.general) (hp : p.Spelled second)
    (hpm : p.major = .array) (hpa : p.arg = some 2) (hi : i.Spelled third)
    (him : i.major = .unsigned) (hia : i.arg = some index) :
    ∃ (h' p' i' : Head) (front' second' third' w' : Bytes),
      w = front' ++ (second' ++ (third' ++ w')) ∧ h'.Spelled front' ∧ h'.major = .tag ∧
      h'.arg = h.arg ∧ p'.Spelled second' ∧ p'.major = .array ∧ p'.arg = some 2 ∧
        i'.Spelled third' ∧
      i'.major = .unsigned ∧ i'.arg = some index ∧ Respelled max u w' := by
  obtain ⟨h', front', w', rfl, hh', hmajor, hbehind, _⟩ := hr.behind hh
  rw [Behind, hm] at hbehind
  obtain ⟨harg, content, hleft, hright, hpair⟩ := hbehind
  obtain ⟨fields, rfl, hfields⟩ := pair_of_spelled hleft hp hpm hpa hi him hia
  obtain ⟨p', hstart, hpa'⟩ := hpair ha index fields rfl
  cases hright with
  | array hp' hpm' hb _ hs =>
    obtain rfl := hstart.unique (hp'.starts _)
    rw [Head.pending, hpa'] at hb
    cases hb
    cases hs with
    | cons hi' hs =>
      cases hs with
      | cons hfields' hs =>
        cases hs
        cases hi' with
        | unsigned hi' him' hia' =>
          rw [List.append_nil]
          exact ⟨h', p', _, front', _, _, _, rfl, hh', hmajor.trans hm, harg, hp', hpm', hpa', hi',
            him', hia', fields, hfields, hfields'⟩

/-- There is one way to write null. -/
theorem null (hr : Respelled max [nullByte] w) : w = [nullByte] := by
  rw [← List.append_nil [nullByte]] at hr
  rw [hr.simple nullBytes_spelled rfl, List.append_nil]

/-- **Spellings of one tree nest as many levels.** -/
theorem item {l : Nat} (hr : Respelled max u w) (hu : Item l u) : Item l w := by
  induction l generalizing u w with
  | zero => exact absurd hu id
  | succ l ih =>
    have elements : ∀ {h : Head} {width j : Nat} {front inner u : Bytes}, h.Spelled front →
        h.major.perElement = some width → h.pending.Body j inner u →
        InRow (Item l) (j * width) inner → Respelled max (front ++ u) w → Item (l + 1) w := by
      intro h width j front inner u hh hm hb hs hr
      obtain ⟨h', front', w', rfl, hh', hmajor, k, y, y', hb₁, hb₂, _, hrows⟩ := hr.collection hh hm
      obtain rfl := hb.inner_unique hb₁
      have hitem : ∀ x, Item l x → IsItem x := fun x hx => hx.isItem
      have hlevel : ∀ x x', Item l x → Respelled max x x' → Item l x' := fun x x' hx hr => ih hr hx
      obtain ⟨hcount, hrow⟩ := hrows.inRow (fun _ _ hr => hr.left) hitem hlevel hs
      rw [hcount] at hrow
      exact ItemOf.of_body hh' (by rw [hmajor, hm]) hb₂ hrow
    cases hu with
    | plain hh ha hm =>
      have hr' := hr
      rw [← List.append_nil u] at hr'
      rcases hm with hm | hm | hm
      · obtain ⟨_, h', hh', hmajor, harg⟩ := hr'.number hh (.inl hm)
        exact .plain hh' (by rwa [harg]) (.inl (hmajor.trans hm))
      · obtain ⟨_, h', hh', hmajor, harg⟩ := hr'.number hh (.inr hm)
        exact .plain hh' (by rwa [harg]) (.inr (.inl (hmajor.trans hm)))
      · rw [hr'.simple hh hm, List.append_nil]
        exact .plain hh ha (.inr (.inr hm))
    | string hh hm hp =>
      obtain ⟨payload, h', front', w', rfl, hh', hmajor, _, hp'⟩ := hr.string hh hm
      exact .string hh' (by rwa [hmajor]) hp'
    | counted hh hm hn hs =>
      exact elements hh hm (by rw [Head.pending, hn]; exact .counted) hs hr
    | opened hh hm hn hs =>
      exact elements hh hm (by rw [Head.pending, hn]; exact .toBreak) hs hr
    | tagged hh hm hi =>
      obtain ⟨h', front', w', rfl, hh', hm', _, hcontent⟩ := hr.tagged hh hm
      exact .tagged hh' hm' (ih hcontent hi)

end Respelled

end CborSchema
