import CborSchema.Proofs.Decode.Loops
import CborSchema.Proofs.Decode.Taken
import CborSchema.Proofs.Decode.Work
import CborSchema.Proofs.Raw.ReadPlaces

/-!
# Hostile input

What any bytes make a reader do is bounded by how many there are.

* `Value.size` -- how many elements a value has, or how many bytes a string;
* `size_le_of_read` -- a value is no larger than the bytes it is read from;
* `Catalog.reading_is_bounded` -- **a read ends, uses up a byte where it answers, begins no more
  values than its bytes pay for, and no collection or string in what it answers is larger than its
  bytes.**
-/

namespace CborSchema

open Decoder

variable {c : Catalog} {s : Shape} {r : Reading}

/-! ## 1. Sizes -/

/-- How many bytes a string has. -/
def Scalar.size : Scalar → Nat
  | .bytes payload => payload.length
  | .text t => (textPayload t).length
  | _ => 0

/-- How many values lie directly in a collection, a key and its value apart, or how many bytes a
    string has. -/
def Value.size (v : Value) : Nat :=
  match v.content with
  | .scalar x => x.size
  | content => content.parts.length

theorem Cells.parts_length_le {α : Type} {cells : List (Cell α)} {P : α → Bytes → Prop}
    (hf : ∀ c ∈ cells, c.Fits P) (hP : ∀ a u, P a u → u ≠ []) :
    (parts cells).length ≤ (bytes cells).length := by
  induction cells with
  | nil => exact Nat.le_refl _
  | cons c cells ih =>
    obtain ⟨hc, hcells⟩ := List.forall_mem_cons.mp hf
    have hrest := ih hcells
    obtain ⟨value, u⟩ := c
    cases value with
    | none =>
      rw [parts_own, bytes_cons, List.length_append]
      omega
    | some a =>
      have hpos := List.length_pos_iff.mpr (hP a u (hc a rfl))
      rw [parts_part, bytes_cons, List.length_append, List.length_cons]
      dsimp only
      omega

/-- **There are no more parts than bytes**, where each part takes a byte. -/
theorem Cut.length_le {α : Type} {P : α → Bytes → Prop} {parts : List α} {u : Bytes}
    (h : Cut P parts u) (hP : ∀ a u, P a u → u ≠ []) : parts.length ≤ u.length := by
  obtain ⟨cells, rfl, hf, hp⟩ := h
  rw [← hp.length_eq]
  exact Cells.parts_length_le hf hP

/-- A payload is no longer than the bytes that hold it. -/
theorem Head.Payload.length_le_bytes {h : Head} {max : UInt64} {payload bytes : Bytes}
    (hp : h.Payload max payload bytes) : payload.length ≤ bytes.length := by
  cases hp with
  | definite _ _ _ => exact Nat.le_refl _
  | indefinite _ hc _ =>
    have hle := hc.payload_le
    rw [List.length_append]
    omega

theorem Shape.ScalarAfter.size_le {h : Head} {kind : Primitive} {x : Scalar} {u : Bytes}
    (hx : s.ScalarAfter r h kind x u) : x.size ≤ u.length := by
  cases hx with
  | bool _ | null _ | uint _ => exact Nat.zero_le _
  | int hn =>
    unfold Head.int at hn
    split at hn
    · cases hn
      exact Nat.zero_le _
    · cases hn
      exact Nat.zero_le _
    · cases hn
  | bytes hp | embedded hp => exact hp.held.length_le_bytes
  | text hp ht =>
    rw [Scalar.size, textPayload_of_readText ht]
    exact hp.held.length_le_bytes

/-- **A value is no larger than the bytes it is read from.** -/
theorem size_le_of_read {o : DecodeOptions} {n : Nat} {v : Value} {u : Bytes}
    (h : c.codec.ReadFrom o n v u) : v.size ≤ u.length := by
  have hparts : v.content.parts.length ≤ u.length := by
    obtain ⟨m, rfl, hcut⟩ := cut_of_read h
    refine hcut.length_le fun z x hz => ?_
    exact ((c.codec.read_partAt o m z.type).whole hz.whole).2.item.ne_nil
  rw [Value.size]
  split
  · rename_i x hx
    cases n with
    | zero => exact absurd h Codec.not_reads_zero
    | succ m =>
      cases Codec.readAt_of_reads (c.codec.sound o m) h with
      | mk hs hk hv =>
        obtain ⟨y, hy, htake⟩ := construct_scalar hv hx
        obtain ⟨front, u', p', rfl, hkind, hcontent, _⟩ := hk.behind_tag
        obtain ⟨kind, head, front', rest, _, rfl, hafter⟩ := hkind.scalarAfter (hcontent ▸ hy)
        have hle := hafter.size_le
        have hsize : x.size ≤ y.size := by
          rcases take_eq_ok htake with rfl | ⟨n, rfl⟩
          · exact Nat.le_refl _
          · exact Nat.zero_le _
        simp only [List.length_append]
        omega
  · exact hparts

/-! ## 2. Runs -/

/-- **Any bytes make a reader do no more than they pay for**, whatever the types, those that contain
    themselves and unions that list each other included. With any nesting left:

    * every loop of the readers of the kinds ends, with one step more than there are bytes at most;
    * a run begins no more values than the price of the type for each byte, and one price more;
    * where it answers, it used up a byte at least and none but those that were there, and these
      alone pay for the values begun;
    * every value in the answer lies in its own stretch of the bytes used up, and has no more
      elements, or bytes if it is a string, than this stretch has bytes. -/
theorem Catalog.reading_is_bounded (c : Catalog) (o : DecodeOptions) (depth : Nat) (t : TypeExpr)
    (bytes : Bytes) :
    (c.codec.reading o depth).LoopsEnd ∧
    (c.codec.read o depth t bytes).reached.length ≤ c.codec.price depth t * (bytes.length + 1) ∧
    ∀ v rest, (c.codec.read o depth t bytes).result = .ok (v, rest) → ∃ used, used ≠ [] ∧
      bytes = used ++ rest ∧
      (c.codec.read o depth t bytes).reached.length ≤ c.codec.price depth t * used.length ∧
      ∀ path y, v.at? path = some y → ∃ pre u post,
        Lies c (c.codec.asRead o) depth v used path y pre u post ∧ y.size ≤ u.length := by
  have hcosts := c.codec.read_costs o depth t
  have hanswers : ∀ v rest, (c.codec.read o depth t bytes).result = .ok (v, rest) →
      ∃ used, used ≠ [] ∧ bytes = used ++ rest ∧ (c.codec.read o depth t).Reads used v ∧
        v.type = t ∧
        (c.codec.read o depth t bytes).reached.length ≤ c.codec.price depth t * used.length := by
    intro v rest h
    obtain ⟨used, rfl, hreads, hitem, htype⟩ := c.codec.sound o depth t bytes v rest h
    have hpaid := hcosts.answers _ v rest h
    rw [List.length_append, Nat.mul_add] at hpaid
    exact ⟨used, hitem.ne_nil, rfl, hreads, htype, by omega⟩
  refine ⟨(c.codec.sound o depth).loopsEnd, ?_, fun v rest h => ?_⟩
  · cases h : (c.codec.read o depth t bytes).result with
    | error e => exact hcosts.fails bytes e h
    | ok p =>
      have hpaid := hcosts.answers bytes p.1 p.2 h
      rw [Nat.mul_add]
      omega
  · obtain ⟨used, hused, hbytes, hreads, rfl, hpaid⟩ := hanswers v rest h
    refine ⟨used, hused, hbytes, hpaid, fun path y hy => ?_⟩
    obtain ⟨pre, u, post, hlies⟩ := lies_of_read hreads hy
    obtain ⟨_, _, hread⟩ := hlies.holds
    exact ⟨pre, u, post, hlies, size_le_of_read hread⟩

/-- Two unions that list each other before an integer: the nesting alone ends their trials, and the
    integer, under an open list, is read by the second. -/
theorem Catalog.unions_of_unions_end :
    let c : Catalog := {
      declared := fun name => {
        schema := (Schema.union.withCandidate
          (.named (if name = "a" then "b" else "a"))).withCandidate .uint64 }
      printName := fun _ => "union" }
    let v : Value := .ofItems (.named "a") [.node (.named "a") (.variant (.node (.named "b")
      (.variant (.ofScalar .uint64 (.uint 5))) {})) {}]
    let bytes : Bytes := [0x9f, 0x05, 0xff]
    (c.codec.read {} 4 (.list (.named "a")) bytes).result = .ok (v, []) ∧
    v.size ≤ bytes.length := by
  intro c v bytes
  have hread : (c.codec.read {} 4 (.list (.named "a")) bytes).result = .ok (v, []) := by cbv
  obtain ⟨_, _, hanswers⟩ := c.reading_is_bounded {} 4 (.list (.named "a")) bytes
  obtain ⟨used, _, hbytes, _, hlies⟩ := hanswers v [] hread
  obtain ⟨pre, u, post, hl, hsize⟩ := hlies [] v rfl
  have hlengths : used.length = pre.length + (u.length + post.length) := by
    rw [hl.eq_append, List.length_append, List.length_append]
  refine ⟨hread, ?_⟩
  rw [hbytes, List.append_nil]
  omega

end CborSchema
