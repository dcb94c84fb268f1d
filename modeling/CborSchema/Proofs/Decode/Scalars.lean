import CborSchema.Decode.Scalar
import CborSchema.Proofs.Decode.Runs

/-!
# Scalars on the wire

Which bytes hold a scalar of a shape, and which hold a literal.

* `Shape.PayloadAfter`, `Shape.ScalarAfter`, `LiteralAfter` -- what stands behind a head;
* `readScalar_yields`, `expectLiteral_yields` -- this is what is read, and nothing else is;
* `ScalarAfter.item`, `LiteralAfter.item` -- head and rest together are one item.
-/

namespace CborSchema

open Decoder

/-! ## 1. Strings -/

/-- The payload of a string of a shape behind its head. -/
structure Shape.PayloadAfter (s : Shape) (r : Reading) (m : Major) (h : Head) (payload u : Bytes) :
    Prop where
  major : h.major = m
  framing : s.requireFraming h.isIndefinite = .ok ()
  held : h.Payload r.options.maxStringLength payload u
  size : s.checkSize payload = .ok ()

variable {s : Shape} {r : Reading} {h : Head}

theorem readPayload_reads {m : Major} {payload u : Bytes} (hp : s.PayloadAfter r m h payload u) :
    (s.readPayload r m h).Reads u payload := by
  rw [Shape.readPayload, if_neg (not_not.mpr hp.major)]
  refine Reads.bind (u := []) (Reads.ofExcept hp.framing) ?_
  refine Reads.bind_nil (Reads.scan (Scan.payload_reads hp.held s.name)) ?_
  exact Reads.bind_nil (Reads.ofExcept hp.size) (Reads.pure payload)

theorem readPayload_yields (s : Shape) (r : Reading) (m : Major) (h : Head) :
    (s.readPayload r m h).Yields (s.PayloadAfter r m h) := by
  rw [Shape.readPayload]
  split
  · exact Yields.fail _
  · rename_i hm
    refine Yields.after fun _ hf => ?_
    refine (Yields.scan (Scan.payload_yields h _ _)).bind fun payload u hp => ?_
    refine Yields.after fun _ hs => Yields.pure ?_
    rw [List.append_nil]
    exact ⟨not_not.mp hm, hf, hp, hs⟩

/-! ## 2. Scalars -/

/-- A scalar of a shape behind its head. -/
inductive Shape.ScalarAfter (s : Shape) (r : Reading) (h : Head) :
    Primitive → Scalar → Bytes → Prop where
  | bool {b : Bool} (hb : h.truth s.name = .ok b) : ScalarAfter s r h .bool (.bool b) []
  | null (hn : h.null s.name = .ok ()) : ScalarAfter s r h .null .null []
  | uint {n : UInt64} (hn : h.uint s.name = .ok n) : ScalarAfter s r h .uint (.uint n) []
  | int {n : Scalar} (hn : h.int s.name = .ok n) : ScalarAfter s r h .int n []
  | bytes {payload u : Bytes} (hp : s.PayloadAfter r .bytes h payload u) :
      ScalarAfter s r h .bytes (.bytes payload) u
  | embedded {payload u : Bytes} (hp : s.PayloadAfter r .bytes h payload u) :
      ScalarAfter s r h .embedded (.bytes payload) u
  | text {payload u : Bytes} {text : String} (hp : s.PayloadAfter r .text h payload u)
      (ht : readText payload s.name = .ok text) : ScalarAfter s r h .text (.text text) u

theorem readAfterHead_reads {p : Primitive} {scalar : Scalar} {u : Bytes}
    (hs : s.ScalarAfter r h p scalar u) : (s.readAfterHead r h p).Reads u scalar := by
  cases hs with
  | bool hb => exact Reads.bind_nil (Reads.ofExcept hb) (Reads.pure _)
  | null hn => exact Reads.bind_nil (Reads.ofExcept hn) (Reads.pure _)
  | uint hn => exact Reads.bind_nil (Reads.ofExcept hn) (Reads.pure _)
  | int hn => exact Reads.ofExcept hn
  | bytes hp => exact Reads.bind_nil (readPayload_reads hp) (Reads.pure _)
  | embedded hp => exact Reads.bind_nil (readPayload_reads hp) (Reads.pure _)
  | text hp ht =>
    exact Reads.bind_nil (readPayload_reads hp) (Reads.bind_nil (Reads.ofExcept ht) (Reads.pure _))

theorem readAfterHead_yields (s : Shape) (r : Reading) (h : Head) (p : Primitive) :
    (s.readAfterHead r h p).Yields (s.ScalarAfter r h p) := by
  cases p with
  | bool => exact Yields.after fun b hb => Yields.pure (.bool hb)
  | null => exact Yields.after fun _ hn => Yields.pure (.null hn)
  | uint => exact Yields.after fun n hn => Yields.pure (.uint hn)
  | int => exact Yields.ofExcept fun n hn => .int hn
  | bytes =>
    refine (readPayload_yields s r .bytes h).bind fun payload u hp => Yields.pure ?_
    rw [List.append_nil]
    exact .bytes hp
  | embedded =>
    refine (readPayload_yields s r .bytes h).bind fun payload u hp => Yields.pure ?_
    rw [List.append_nil]
    exact .embedded hp
  | text =>
    refine (readPayload_yields s r .text h).bind fun payload u hp => ?_
    refine Yields.after fun text ht => Yields.pure ?_
    rw [List.append_nil]
    exact .text hp ht

/-- The parts of a scalar of a shape. -/
inductive Shape.ScalarAt (s : Shape) (r : Reading) (p : Primitive) : Parts → Bytes → Prop where
  | mk {h : Head} {front u : Bytes} {scalar : Scalar} (hh : h.Spelled front)
      (hs : s.ScalarAfter r h p scalar u) :
      ScalarAt s r p {
        name := s.name
        content := .scalar scalar
        style := { indefinite := p.isString && h.isIndefinite } } (front ++ u)

theorem readScalar_reads {p : Primitive} {parts : Parts} {u : Bytes} (hs : s.ScalarAt r p parts u) :
    (s.readScalar r p).Reads u parts := by
  cases hs with
  | mk hh hs =>
    exact (Reads.scan (hh s.name)).bind (Reads.bind_nil (readAfterHead_reads hs) (Reads.pure _))

theorem readScalar_yields (s : Shape) (r : Reading) (p : Primitive) :
    (s.readScalar r p).Yields (s.ScalarAt r p) := by
  refine (Yields.scan (head_yields s.name)).bind fun h front hh => ?_
  refine (readAfterHead_yields s r h p).bind fun scalar u hs => Yields.pure ?_
  rw [List.append_nil]
  exact .mk hh hs

/-! ## 3. Literals -/

/-- What stands behind a head that opens a literal. -/
inductive LiteralAfter (name : String) (max : UInt64) (h : Head) : Literal → Bytes → Prop where
  | int {n : Int64} (hm : h.major = if 0 ≤ n then .unsigned else .negative)
      (ha : h.arg = some (wireMagnitude n)) : LiteralAfter name max h (.int n) []
  | bool {b : Bool} (hb : h.truth name = .ok b) : LiteralAfter name max h (.bool b) []
  | text {s : String} {u : Bytes} (hm : h.major = .text) (hp : h.Payload max (textPayload s) u) :
      LiteralAfter name max h (.text s) u

theorem matchesLiteral_reads {name : String} {max : UInt64} {l : Literal} {u : Bytes}
    (hl : LiteralAfter name max h l u) : (matchesLiteral name max h l).Reads u true := by
  cases hl with
  | int hm ha =>
    rename_i n
    rw [matchesLiteral, hm, ha]
    by_cases hn : 0 ≤ n
    · simpa [hn] using Reads.pure true
    · simpa [hn, Int64.not_le.mp hn] using Reads.pure true
  | bool hb =>
    rw [matchesLiteral, hb]
    simpa using Reads.pure true
  | text hm hp =>
    rw [matchesLiteral, if_pos hm]
    refine Reads.bind_nil (Reads.scan (Scan.payload_reads hp name)) ?_
    simpa using Reads.pure true

theorem matchesLiteral_yields (name : String) (max : UInt64) (h : Head) (l : Literal) :
    (matchesLiteral name max h l).Yields fun b u => b = true → LiteralAfter name max h l u := by
  cases l with
  | int n =>
    refine Yields.pure fun hb => ?_
    split at hb
    · rename_i hm ha
      simp only [Bool.and_eq_true, decide_eq_true_eq, beq_iff_eq] at hb
      exact .int (by rw [hm, if_pos hb.1]) (by rw [ha, hb.2])
    · rename_i hm ha
      simp only [Bool.and_eq_true, decide_eq_true_eq, beq_iff_eq] at hb
      exact .int (by rw [hm, if_neg (Int64.not_le.mpr hb.1)]) (by rw [ha, hb.2])
    · cases hb
  | bool b =>
    refine Yields.pure fun hb => ?_
    split at hb
    · rename_i found hf
      rw [beq_iff_eq] at hb
      exact .bool (hb ▸ hf)
    · cases hb
  | text t =>
    rw [matchesLiteral]
    split
    · rename_i hm
      refine (Yields.scan (Scan.payload_yields h max name)).bind fun payload u hp => Yields.pure ?_
      intro hb
      rw [beq_iff_eq] at hb
      rw [List.append_nil]
      exact .text hm (hb ▸ hp)
    · exact Yields.pure fun hb => by cases hb

/-- The bytes of a literal. -/
inductive LiteralAt (name : String) (max : UInt64) (l : Literal) : Bytes → Prop where
  | mk {h : Head} {front u : Bytes} (hh : h.Spelled front) (hl : LiteralAfter name max h l u) :
      LiteralAt name max l (front ++ u)

theorem expectLiteral_reads {name : String} {max : UInt64} {key : FieldKey} {l : Literal}
    {u : Bytes} (hl : LiteralAt name max l u) : (expectLiteral name max key l).Reads u () := by
  cases hl with
  | mk hh hl =>
    exact (Reads.scan (hh name)).bind (Reads.bind_nil (matchesLiteral_reads hl) (Reads.pure ()))

theorem expectLiteral_yields (name : String) (max : UInt64) (key : FieldKey) (l : Literal) :
    (expectLiteral name max key l).Yields fun _ u => LiteralAt name max l u := by
  refine (Yields.scan (head_yields name)).bind fun h front hh => ?_
  refine (matchesLiteral_yields name max h l).bind fun b u hl => ?_
  cases b with
  | true =>
    refine Yields.pure ?_
    rw [List.append_nil]
    exact .mk hh (hl rfl)
  | false => exact Yields.fail _

/-! ## 4. Scalars and literals are items -/

/-- What stands for a truth value has no parts. -/
theorem Head.truth_plain {name : String} {b : Bool} (hb : h.truth name = .ok b) :
    h.major = .simple ∧ h.arg ≠ none := by
  unfold Head.truth at hb
  split at hb
  · rename_i hm ha
    exact ⟨hm, by simp [ha]⟩
  · cases hb

theorem Head.null_plain {name : String} (hn : h.null name = .ok ()) :
    h.major = .simple ∧ h.arg ≠ none := by
  unfold Head.null at hn
  split at hn
  · rename_i hm ha
    exact ⟨hm, by simp [ha]⟩
  · cases hn

theorem Head.uint_plain {name : String} {n : UInt64} (hn : h.uint name = .ok n) :
    h.major = .unsigned := by
  unfold Head.uint at hn
  split at hn
  · assumption
  · cases hn

theorem Head.int_plain {name : String} {n : Scalar} (hn : h.int name = .ok n) :
    h.major = .unsigned ∨ h.major = .negative := by
  unfold Head.int at hn
  split at hn
  · exact .inl (by assumption)
  · exact .inr (by assumption)
  · cases hn

/-- An integer has an argument. -/
theorem Head.Spelled.arg_ne_none {front : Bytes} (hh : h.Spelled front)
    (hm : h.major.hasOpenForm = false) : h.arg ≠ none := by
  intro ha
  rw [hh.hasOpenForm ha] at hm
  cases hm

variable {P : Bytes → Prop} {front u : Bytes}

theorem ItemOf.plain_nil (hh : h.Spelled front) (ha : h.arg ≠ none)
    (hm : h.major = .unsigned ∨ h.major = .negative ∨ h.major = .simple) :
    ItemOf P (front ++ []) := by
  rw [List.append_nil]
  exact .plain hh ha hm

/-- **A scalar is one item.** -/
theorem Shape.ScalarAfter.item {p : Primitive} {scalar : Scalar}
    (hs : s.ScalarAfter r h p scalar u) (hh : h.Spelled front) : ItemOf P (front ++ u) := by
  cases hs with
  | bool hb =>
    obtain ⟨hm, ha⟩ := Head.truth_plain hb
    exact .plain_nil hh ha (.inr (.inr hm))
  | null hn =>
    obtain ⟨hm, ha⟩ := Head.null_plain hn
    exact .plain_nil hh ha (.inr (.inr hm))
  | uint hn =>
    have hm := Head.uint_plain hn
    exact .plain_nil hh (hh.arg_ne_none (by rw [hm]; rfl)) (.inl hm)
  | int hn =>
    rcases Head.int_plain hn with hm | hm
    · exact .plain_nil hh (hh.arg_ne_none (by rw [hm]; rfl)) (.inl hm)
    · exact .plain_nil hh (hh.arg_ne_none (by rw [hm]; rfl)) (.inr (.inl hm))
  | bytes hp => exact .string hh (.inl hp.major) hp.held.largest
  | embedded hp => exact .string hh (.inl hp.major) hp.held.largest
  | text hp ht => exact .string hh (.inr hp.major) hp.held.largest

/-- **A literal is one item.** -/
theorem LiteralAfter.item {name : String} {max : UInt64} {l : Literal}
    (hl : LiteralAfter name max h l u) (hh : h.Spelled front) : ItemOf P (front ++ u) := by
  cases hl with
  | int hm ha =>
    refine .plain_nil hh (by simp [ha]) ?_
    split at hm
    · exact .inl hm
    · exact .inr (.inl hm)
  | bool hb =>
    obtain ⟨hm, ha⟩ := Head.truth_plain hb
    exact .plain_nil hh ha (.inr (.inr hm))
  | text hm hp => exact .string hh (.inr hm) hp.largest

theorem Shape.ScalarAt.item {p : Primitive} {parts : Parts} (hs : s.ScalarAt r p parts u) :
    ItemOf P u := by
  cases hs with
  | mk hh hs => exact hs.item hh

theorem LiteralAt.item {name : String} {max : UInt64} {l : Literal} (hl : LiteralAt name max l u) :
    ItemOf P u := by
  cases hl with
  | mk hh hl => exact hl.item hh

end CborSchema
