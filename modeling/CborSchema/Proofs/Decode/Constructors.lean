import CborSchema.Decode.Constructor
import CborSchema.Proofs.Decode.Arrays

/-!
# Constructors on the wire

A constructor is an array behind a tag: the short tag of its index, or the general tag of a pair of
the index and the array.

* `IndexAt` -- the bytes in front of the fields;
* `Shape.ConstructorAt` -- a constructor of a shape; `readConstructor_reads`,
  `readConstructor_yields` -- this is what is read, and nothing else is;
* `ConstructorAt.item`, `ConstructorAt.cut` -- it is one item, and its parts are those of the array.
-/

namespace CborSchema

open Decoder

variable {s : Shape} {r : Reading}

/-- What stands in front of the fields of a constructor of an index. -/
inductive IndexAt (index : UInt64) : Bytes → Prop where
  | short {h : Head} {front : Bytes} (hh : h.Spelled front) (hm : h.major = .tag)
      (hi : Tag.index? (h.arg.getD 0) = some index) : IndexAt index front
  | pair {h p i : Head} {front second third : Bytes} (hh : h.Spelled front) (hm : h.major = .tag)
      (ht : h.arg.getD 0 = Tag.general) (hp : p.Spelled second) (hpm : p.major = .array)
      (hpa : p.arg = some 2) (hi : i.Spelled third) (him : i.major = .unsigned)
      (hia : i.arg = some index) : IndexAt index (front ++ (second ++ third))

theorem readPairIndex_reads {name : String} {index : UInt64} {p i : Head} {second third : Bytes}
    (hp : p.Spelled second) (hpm : p.major = .array) (hpa : p.arg = some 2) (hi : i.Spelled third)
    (him : i.major = .unsigned) (hia : i.arg = some index) :
    (readPairIndex name).Reads (second ++ third) index := by
  refine (Reads.scan (hp name)).bind ?_
  have hpair : ¬ ((decide (p.major ≠ .array) || decide (p.arg ≠ some 2)) = true) := by
    simp [hpm, hpa]
  rw [if_neg hpair]
  refine Reads.bind_nil (Reads.scan (hi name)) ?_
  rw [him, hia]
  exact Reads.pure index

theorem readConstructorIndex_reads {name : String} {index : UInt64} {u : Bytes}
    (h : IndexAt index u) : (readConstructorIndex name).Reads u index := by
  cases h with
  | short hh hm hi =>
    refine Reads.bind_nil (Reads.scan (hh name)) ?_
    rw [if_neg (not_not.mpr hm)]
    dsimp only
    rw [hi]
    exact Reads.pure index
  | pair hh hm ht hp hpm hpa hi him hia =>
    refine (Reads.scan (hh name)).bind ?_
    rw [if_neg (not_not.mpr hm)]
    dsimp only
    rw [ht, show Tag.index? Tag.general = none by decide]
    dsimp only
    rw [if_pos rfl]
    exact readPairIndex_reads hp hpm hpa hi him hia

theorem readConstructorIndex_yields (name : String) :
    (readConstructorIndex name).Yields IndexAt := by
  refine (Yields.scan (head_yields name)).bind fun h front hh => ?_
  split
  · exact Yields.fail _
  · rename_i hm
    rw [ne_eq, not_not] at hm
    dsimp only
    split
    · rename_i index hi
      refine Yields.pure ?_
      rw [List.append_nil]
      exact .short hh hm hi
    · split
      · rename_i ht
        refine (Yields.scan (head_yields name)).bind fun p second hp => ?_
        split
        · exact Yields.fail _
        · rename_i hpair
          simp only [Bool.or_eq_true, decide_eq_true_eq, not_or, ne_eq, not_not] at hpair
          refine (Yields.scan (head_yields name)).bind fun i third hi => ?_
          split
          · rename_i him hia
            refine Yields.pure ?_
            rw [List.append_nil]
            exact .pair hh hm ht hp hpair.1 hpair.2 hi him hia
          · exact Yields.fail _
      · exact Yields.fail _

/-- A constructor of a shape. -/
inductive Shape.ConstructorAt (s : Shape) (r : Reading) : Parts → Bytes → Prop where
  | mk {index : UInt64} {parts : Parts} {front u : Bytes} (hi : IndexAt index front)
      (hc : s.checkIndex index = .ok ()) (ha : s.ArrayAt r parts u) :
      ConstructorAt s r { parts with alternative := some index } (front ++ u)

theorem readConstructor_reads {parts : Parts} {u : Bytes} (h : s.ConstructorAt r parts u) :
    (s.readConstructor r).Reads u parts := by
  cases h with
  | mk hi hc ha =>
    refine (readConstructorIndex_reads hi).bind ?_
    refine Reads.bind (u := []) (Reads.ofExcept hc) ?_
    exact Reads.bind_nil (readArray_reads ha) (Reads.pure _)

theorem readConstructor_yields (hr : r.Sound) (s : Shape) :
    (s.readConstructor r).Yields (s.ConstructorAt r) := by
  refine (readConstructorIndex_yields s.name).bind fun index front hi => ?_
  refine Yields.after fun _ hc => ?_
  refine (readArray_yields hr s).bind fun parts u ha => Yields.pure ?_
  rw [List.append_nil]
  exact .mk hi hc ha

/-- **What stands in front of the fields makes one item of an item.** -/
theorem IndexAt.item {index : UInt64} {front u : Bytes} (h : IndexAt index front) (hu : IsItem u) :
    IsItem (front ++ u) := by
  cases h with
  | short hh hm hi => exact (ItemOf.tagged hh hm hu).isItem
  | pair hh hm ht hp hpm hpa hi him hia =>
    rename_i h p i front second third
    have hindex : IsItem third := (ItemOf.plain hi (by simp [hia]) (.inl him)).isItem
    have hrow : InRow IsItem ((2 : UInt64).toNat * 1) (third ++ u) :=
      (InRow.single hindex).append (InRow.single hu)
    have hpair := (ItemOf.counted hp (by rw [hpm]; rfl) hpa hrow).isItem
    rw [List.append_assoc, List.append_assoc]
    exact (ItemOf.tagged hh hm hpair).isItem

theorem Shape.ConstructorAt.item {parts : Parts} {u : Bytes} (h : s.ConstructorAt r parts u) :
    IsItem u := by
  cases h with
  | mk hi hc ha => exact hi.item ha.item

theorem Shape.ConstructorAt.cut {parts : Parts} {u : Bytes} (h : s.ConstructorAt r parts u) :
    r.Cut parts.content.parts u := by
  cases h with
  | mk hi hc ha => exact .front _ ha.cut

end CborSchema
