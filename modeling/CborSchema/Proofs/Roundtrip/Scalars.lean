import CborSchema.Proofs.Decode.Maps
import CborSchema.Proofs.Encode.Written

/-!
# Scalars read back

What is written for a scalar, a literal or a key is read as it.

* `Reading.Roomy` -- limits that hold so many bytes;
* `Repeats` -- a style that asks for the framing that was written: the style it was written with, or
  the one a reader observes;
* `chunks_of_pieces` -- pieces written as chunks are the chunks of what they join to; `byteChunks`
  and `textChunks` cut a payload without loss;
* `Scalar.wire` -- a scalar as a reader sees it: an integer by its sign;
* `writeScalarOf_read`, `Literal.bytes_at`, `FieldKey.bytes_at` -- **what is written is read back**;
* `ScalarForm.Holds`, `take_wire` -- a scalar of the form that a type takes in is taken in as it
  was.
-/

namespace CborSchema

variable {s : Shape} {r : Reading}

/-! ## 1. Limits and styles -/

/-- The lengths allowed hold so many bytes. -/
structure Reading.Roomy (r : Reading) (k : Nat) : Prop where
  string : k ≤ r.options.maxStringLength.toNat
  collection : k ≤ r.options.maxCollectionLength.toNat

theorem Reading.Roomy.mono {j k : Nat} (h : r.Roomy k) (hjk : j ≤ k) : r.Roomy j :=
  ⟨Nat.le_trans hjk h.string, Nat.le_trans hjk h.collection⟩

/-- A style that asks again for a framing: the one it was written with, or one observed there. -/
def Repeats (style : Option ItemStyle) (indefinite : Bool) (style' : Option ItemStyle) : Prop :=
  style' = style ∨ ∃ observed : ItemStyle, style' = some observed ∧ observed.indefinite = indefinite

theorem Repeats.chunked {style style' : Option ItemStyle} {length : Nat}
    (h : Repeats style (s.chunked style length) style') :
    s.chunked style' length = s.chunked style length := by
  rcases h with rfl | ⟨observed, rfl, hobs⟩
  · rfl
  · unfold Shape.chunked at *
    split
    · rfl
    · rfl
    · rename_i hl
      simp only [hl] at hobs
      simp only [Option.any_some, hobs]
      cases style with
      | none => simp
      | some style => simp

theorem Repeats.indefinite {w : Writing} {framing : Framing} {style style' : Option ItemStyle}
    (h : Repeats style (w.indefinite framing style) style') :
    w.indefinite framing style' = w.indefinite framing style := by
  rcases h with rfl | ⟨observed, rfl, hobs⟩
  · rfl
  · cases framing with
    | definite => rfl
    | indefinite => rfl
    | either => exact hobs

/-! ## 2. Pieces -/

/-- **Units that are put into pieces are neither lost nor moved.** -/
theorem fill_flatten {α : Type} (weight : α → Nat) (size room : Nat) (as : List α) :
    (fill weight size room as).1 ++ (fill weight size room as).2.flatten = as := by
  induction as generalizing room with
  | nil => rfl
  | cons a as ih =>
    rw [fill]
    split
    · have h := ih (room - weight a)
      simpa using h
    · have h := ih (size - weight a)
      simpa using h

theorem chunks_flatten {α : Type} (weight : α → Nat) (size : Nat) (as : List α) :
    (chunks weight size as).flatten = as := by
  cases as with
  | nil => rfl
  | cons a as =>
    have h := fill_flatten weight size (size - weight a) as
    rw [chunks, List.flatten_cons, List.cons_append, h]

theorem byteChunks_flatten (size : Nat) (payload : Bytes) :
    (byteChunks size payload).flatten = payload := chunks_flatten _ size payload

theorem textPayload_append (a b : List Char) : textPayload (String.ofList (a ++ b)) =
    textPayload (String.ofList a) ++ textPayload (String.ofList b) := by
  simp [textPayload]

theorem textChunks_flatten (size : Nat) (text : String) :
    (textChunks size text).flatten = textPayload text := by
  have hpieces : ∀ pieces : List (List Char),
      (pieces.map fun piece => textPayload (String.ofList piece)).flatten =
        textPayload (String.ofList pieces.flatten) := by
    intro pieces
    induction pieces with
    | nil => rfl
    | cons piece pieces ih =>
      rw [List.map_cons, List.flatten_cons, List.flatten_cons, ih, textPayload_append]
  rw [textChunks, hpieces, chunks_flatten, String.ofList_toList]

theorem decodeText_textPayload (text : String) : decodeText (textPayload text) = some text := by
  have hbytes : (textPayload text).toByteArray = text.toByteArray := by
    rw [textPayload]
    apply ByteArray.ext
    rw [List.data_toByteArray]
  rw [decodeText, hbytes, String.fromUTF8?, dif_pos text.isValidUTF8]
  rfl

theorem readText_textPayload (text context : String) :
    readText (textPayload text) context = .ok text := by
  rw [readText, decodeText_textPayload]

/-! ## 3. Strings -/

/-- The head of a string announces its payload. -/
theorem stringBytes_spelled (m : Major) {payload : Bytes} (hlen : payload.length < UInt64.size) :
    ∃ (h : Head) (n : UInt64) (front : Bytes), stringBytes m payload = front ++ payload ∧
      h.Spelled front ∧ h.major = m ∧ h.arg = some n ∧ payload.length = n.toNat := by
  obtain ⟨info, hh⟩ := headBytes_spelled m (UInt64.ofNat payload.length) .minimal
  have hn : payload.length = (UInt64.ofNat payload.length).toNat :=
    (UInt64.toNat_ofNat_of_lt' hlen).symm
  exact ⟨_, _, _, rfl, hh, rfl, rfl, hn⟩

/-- **Pieces written as chunks are the chunks of what they join to.** -/
theorem chunks_of_pieces (m : Major) {pieces : List Bytes}
    (hlen : pieces.flatten.length < UInt64.size) :
    Chunks m (pieces.flatMap (stringBytes m)) pieces.flatten := by
  induction pieces with
  | nil => exact .nil
  | cons piece pieces ih =>
    rw [List.flatten_cons, List.length_append] at hlen
    have hpiece : piece.length < UInt64.size := by omega
    obtain ⟨h, n, front, hb, hh, hm, hn, hp⟩ := stringBytes_spelled m hpiece
    have hrest := ih (by omega)
    rw [List.flatMap_cons, List.flatten_cons, hb, List.append_assoc]
    exact .cons hh hm hn hp hrest

/-- What a chunked string is written as is no shorter than its payload. -/
theorem length_le_flatMap_stringBytes (m : Major) (pieces : List Bytes) :
    pieces.flatten.length ≤ (pieces.flatMap (stringBytes m)).length := by
  induction pieces with
  | nil => exact Nat.le_refl 0
  | cons piece pieces ih =>
    rw [List.flatten_cons, List.flatMap_cons, List.length_append, List.length_append, stringBytes,
      List.length_append]
    omega

theorem requireFraming_of_chunked {style : Option ItemStyle} {length : Nat} :
    s.requireFraming (s.chunked style length) = .ok () := by
  unfold Shape.requireFraming Shape.chunked
  cases s.length <;> rfl

/-- **A string is written at its size**, in chunks or as one piece. -/
theorem writePayload_eq_ok {style : Option ItemStyle} {m : Major} {payload u : Bytes}
    {pieces : Nat → List Bytes} (h : s.writePayload style m payload pieces = .ok u) :
    s.checkSize payload = .ok () ∧
      u = if s.chunked style payload.length then
        chunkedBytes m (pieces (s.chunkSize.getD Limits.chunk)) else stringBytes m payload := by
  have hcut : ∀ {chunked : Bool} {a b : Bytes},
      (if chunked then pure a else pure b : Except EncodeError Bytes) = .ok u →
        u = if chunked then a else b := by
    intro chunked a b h
    cases chunked with
    | true => exact (Except.ok.inj h).symm
    | false => exact (Except.ok.inj h).symm
  rw [Shape.writePayload] at h
  rw [Shape.checkSize]
  cases hs : s.size with
  | none =>
    rw [hs] at h
    exact ⟨rfl, hcut h⟩
  | some size =>
    rw [hs] at h
    by_cases hl : payload.length = size
    · simp only [hl, ne_eq, not_true_eq_false, if_false] at h
      rw [hl]
      exact ⟨if_pos rfl, hcut h⟩
    · simp only [ne_eq, hl, not_false_eq_true, if_true] at h
      cases h

/-- Chunks that are written are read back. -/
theorem chunkedBytes_read {max : UInt64} {m : Major} (hm : m.hasOpenForm = true)
    {pieces : List Bytes} (hmax : (chunkedBytes m pieces).length ≤ max.toNat) :
    ∃ (h : Head) (front rest : Bytes), chunkedBytes m pieces = front ++ rest ∧ h.Spelled front ∧
      h.major = m ∧ h.Payload max pieces.flatten rest ∧ h.isIndefinite = true := by
  have hlt := max.toNat_lt
  have hlen := length_le_flatMap_stringBytes m pieces
  rw [chunkedBytes, List.append_assoc, List.length_append, List.length_append] at hmax
  have hsmall : pieces.flatten.length < UInt64.size := by
    rw [UInt64.size]
    omega
  have hchunks := chunks_of_pieces m hsmall
  have hpayload : (⟨m, 31, none⟩ : Head).Payload max pieces.flatten
      (pieces.flatMap (stringBytes m) ++ [breakByte]) := .indefinite rfl hchunks (by omega)
  refine ⟨⟨m, 31, none⟩, _, _, ?_, indefiniteHead_spelled hm, rfl, hpayload, rfl⟩
  rw [chunkedBytes, List.append_assoc]

theorem length_le_stringBytes (m : Major) (payload : Bytes) :
    payload.length ≤ (stringBytes m payload).length := by
  rw [stringBytes, List.length_append]
  omega

/-- A string that is written as one piece is read back. -/
theorem stringBytes_read {max : UInt64} (m : Major) {payload : Bytes}
    (hmax : payload.length ≤ max.toNat) :
    ∃ (h : Head) (front : Bytes), stringBytes m payload = front ++ payload ∧ h.Spelled front ∧
      h.major = m ∧ h.Payload max payload payload ∧ h.isIndefinite = false := by
  have hlen : payload.length < UInt64.size := Nat.lt_of_le_of_lt hmax max.toNat_lt
  obtain ⟨h, n, front, hb, hh, hm, hn, hp⟩ := stringBytes_spelled m hlen
  have hdef : h.isIndefinite = false := by
    rw [Head.isIndefinite, hn]
    rfl
  exact ⟨h, front, hb, hh, hm, .definite hn hp hmax, hdef⟩

/-- **A string that is written is read back**, and a style that repeats its framing writes it
    again. -/
theorem writePayload_read {style : Option ItemStyle} {m : Major} {payload u : Bytes}
    {pieces : Nat → List Bytes} (hm : m.hasOpenForm = true)
    (hpieces : ∀ size, (pieces size).flatten = payload)
    (hw : s.writePayload style m payload pieces = .ok u) (hroom : r.Roomy u.length) :
    ∃ (h : Head) (front rest : Bytes), u = front ++ rest ∧ h.Spelled front ∧
      s.PayloadAfter r m h payload rest ∧
      ∀ style', Repeats style h.isIndefinite style' →
        s.writePayload style' m payload pieces = .ok u := by
  have hagain : ∀ style', Repeats style (s.chunked style payload.length) style' →
      s.writePayload style' m payload pieces = .ok u := by
    intro style' hr
    rw [Shape.writePayload, hr.chunked, ← Shape.writePayload]
    exact hw
  have hframing : s.requireFraming (s.chunked style payload.length) = .ok () :=
    requireFraming_of_chunked
  obtain ⟨hsize, hu⟩ := writePayload_eq_ok hw
  have hmax := hroom.string
  by_cases hc : s.chunked style payload.length = true
  · rw [if_pos hc] at hu
    rw [hu] at hmax
    obtain ⟨h, front, rest, hb, hh, hmajor, hp, hi⟩ := chunkedBytes_read hm hmax
    rw [hpieces] at hp
    rw [hc, ← hi] at hframing hagain
    exact ⟨h, front, rest, hu.trans hb, hh, ⟨hmajor, hframing, hp, hsize⟩, hagain⟩
  · rw [if_neg hc] at hu
    rw [hu] at hmax
    obtain ⟨h, front, hb, hh, hmajor, hp, hi⟩ :=
      stringBytes_read m (Nat.le_trans (length_le_stringBytes m payload) hmax)
    rw [Bool.not_eq_true] at hc
    rw [hc, ← hi] at hframing hagain
    exact ⟨h, front, payload, hu.trans hb, hh, ⟨hmajor, hframing, hp, hsize⟩, hagain⟩

/-! ## 4. Integers -/

theorem toUInt64_lt {n : Int64} (h : 0 ≤ n) : n.toUInt64 < 0x8000000000000000 := by
  have hlt := n.toNatClampNeg_lt
  rw [← Int64.toNat_toUInt64_of_le h] at hlt
  rw [UInt64.lt_iff_toNat_lt]
  exact hlt

theorem complement_nonneg {n : Int64} (h : ¬ 0 ≤ n) : 0 ≤ -1 - n := by
  have hn : n.toInt < 0 := by
    simpa [Int64.le_iff_toInt_le] using h
  have hlow := n.le_toInt
  have hone : (-1 : Int64).toInt = -1 := by decide
  have hzero : (0 : Int64).toInt = 0 := by decide
  rw [Int64.le_iff_toInt_le, Int64.toInt_sub, hone, hzero, Int.bmod_eq_of_le (by omega) (by omega)]
  omega

/-- **The argument of a signed integer fits one.** -/
theorem wireMagnitude_lt (n : Int64) : wireMagnitude n < 0x8000000000000000 := by
  rw [wireMagnitude]
  by_cases h : 0 ≤ n
  · rw [if_pos h]
    exact toUInt64_lt h
  · rw [if_neg h]
    exact toUInt64_lt (complement_nonneg h)

theorem toInt64_wireMagnitude {n : Int64} (h : 0 ≤ n) : (wireMagnitude n).toInt64 = n := by
  rw [wireMagnitude, if_pos h, Int64.toInt64_toUInt64]

theorem complement_wireMagnitude {n : Int64} (h : ¬ 0 ≤ n) :
    -1 - (wireMagnitude n).toInt64 = n := by
  rw [wireMagnitude, if_neg h, Int64.toInt64_toUInt64]
  grind

theorem intBytes_spelled (n : Int64) (w : HeadWidth) : ∃ info,
    Head.Spelled ⟨if 0 ≤ n then .unsigned else .negative, info, some (wireMagnitude n)⟩
      (intBytes n w) := headBytes_spelled _ _ _

/-! ## 5. Scalars -/

/-- A scalar as a reader sees it: an integer by its sign. -/
def Scalar.wire : Scalar → Scalar
  | .int n => if 0 ≤ n then .uint (wireMagnitude n) else .nint (wireMagnitude n)
  | x => x

theorem boolBytes_spelled (b : Bool) : ∃ info,
    Head.Spelled ⟨.simple, info, some (if b then simpleTrue else simpleFalse)⟩ (boolBytes b) :=
  headBytes_spelled _ _ _

theorem truth_bool (b : Bool) (info : UInt8) (name : String) :
    Head.truth ⟨.simple, info, some (if b then simpleTrue else simpleFalse)⟩ name = .ok b := by
  cases b <;> rfl

theorem nullBytes_spelled : Head.Spelled ⟨.simple, 22, some simpleNull⟩ nullBytes := by
  have h := Head.Spelled.short (i := nullByte) (by decide)
  exact h

/-- **A scalar that is written is read back**, with the framing it was written with. -/
theorem writeScalarOf_read {style : Option ItemStyle} {kind : Primitive} {x : Scalar} {u : Bytes}
    (hx : s.writeScalarOf style kind x = .ok u) (hroom : r.Roomy u.length) :
    ∃ (h : Head) (front rest : Bytes), u = front ++ rest ∧ h.Spelled front ∧
      s.ScalarAfter r h kind x.wire rest ∧ ∀ style', Repeats style
        (kind.isString && h.isIndefinite) style' → s.writeScalarOf style' kind x = .ok u := by
  have hint : ∀ {n : UInt64} {b : Bytes},
      (s.requireWidth n >>= fun _ => pure b : Except EncodeError Bytes) = .ok u → b = u := by
    intro n b h
    obtain ⟨_, _, h⟩ := Except.bind_eq_ok h
    exact Except.ok.inj h
  unfold Shape.writeScalarOf at hx
  split at hx
  · rename_i b
    obtain rfl := Except.ok.inj hx
    obtain ⟨info, hh⟩ := boolBytes_spelled b
    exact ⟨_, _, [], (List.append_nil _).symm, hh, .bool (truth_bool b info _), fun _ _ => rfl⟩
  · obtain rfl := Except.ok.inj hx
    exact ⟨_, _, [], (List.append_nil _).symm, nullBytes_spelled, .null rfl, fun _ _ => rfl⟩
  · rename_i n
    obtain rfl := hint hx
    obtain ⟨info, hh⟩ := headBytes_spelled .unsigned n s.headWidth
    exact ⟨_, _, [], (List.append_nil _).symm, hh, .uint rfl, fun _ _ => hx⟩
  · rename_i n
    obtain rfl := hint hx
    obtain ⟨info, hh⟩ := headBytes_spelled .unsigned n s.headWidth
    exact ⟨_, _, [], (List.append_nil _).symm, hh, .int rfl, fun _ _ => hx⟩
  · rename_i n
    obtain rfl := hint hx
    obtain ⟨info, hh⟩ := intBytes_spelled n s.headWidth
    refine ⟨_, _, [], (List.append_nil _).symm, hh, .int ?_, fun _ _ => hx⟩
    by_cases hn : 0 ≤ n
    · simp [Scalar.wire, Head.int, hn]
    · simp [Scalar.wire, Head.int, hn]
  · rename_i payload
    obtain ⟨h, front, rest, hu, hh, hp, hagain⟩ :=
      writePayload_read (by rfl) (byteChunks_flatten · payload) hx hroom
    exact ⟨h, front, rest, hu, hh, .bytes hp, fun style' hr => hagain style' hr⟩
  · rename_i payload
    obtain ⟨h, front, rest, hu, hh, hp, hagain⟩ :=
      writePayload_read (by rfl) (byteChunks_flatten · payload) hx hroom
    exact ⟨h, front, rest, hu, hh, .embedded hp, fun style' hr => hagain style' hr⟩
  · rename_i text
    obtain ⟨h, front, rest, hu, hh, hp, hagain⟩ :=
      writePayload_read (by rfl) (textChunks_flatten · text) hx hroom
    exact ⟨h, front, rest, hu, hh, .text hp (readText_textPayload text _),
      fun style' hr => hagain style' hr⟩
  · cases hx

/-- The scalars that a form takes in. -/
inductive ScalarForm.Holds : ScalarForm → Scalar → Prop where
  | bool (b : Bool) : Holds .bool (.bool b)
  | uint64 (n : UInt64) : Holds .uint64 (.uint n)
  | uint32 {n : UInt64} (hn : n < 0x100000000) : Holds .uint32 (.uint n)
  | int64 (n : Int64) : Holds .int64 (.int n)
  | bytes (payload : Bytes) : Holds .bytes (.bytes payload)
  | text (t : String) : Holds .text (.text t)
  | null : Holds .null .null

/-- **A scalar of a form is taken in as it was.** -/
theorem take_wire {form : ScalarForm} {x : Scalar} (h : form.Holds x) :
    form.take x.wire = .ok x := by
  cases h with
  | uint32 hn => exact if_pos hn
  | int64 n =>
    have hlt := wireMagnitude_lt n
    by_cases hn : 0 ≤ n
    · simp only [Scalar.wire, if_pos hn, ScalarForm.take, if_pos hlt, toInt64_wireMagnitude hn]
    · simp only [Scalar.wire, if_neg hn, ScalarForm.take, if_pos hlt, complement_wireMagnitude hn]
  | _ => rfl

theorem forWriting_of_holds {form : ScalarForm} {x : Scalar} (h : form.Holds x) :
    x.forWriting = .ok x := by
  cases h <;> rfl

/-! ## 6. Literals and keys -/

/-- The text of a literal, if it is one, is within a limit. -/
def Literal.Within (max : UInt64) (l : Literal) : Prop :=
  ∀ t, l = .text t → (textPayload t).length ≤ max.toNat

/-- The text of a key, if it is one, is within a limit. -/
def FieldKey.Within (max : UInt64) (key : FieldKey) : Prop :=
  ∀ t, key = .text t → (textPayload t).length ≤ max.toNat

theorem Literal.within_of_bytes {max : UInt64} {l : Literal} (h : l.bytes.length ≤ max.toNat) :
    l.Within max := by
  rintro t rfl
  exact Nat.le_trans (length_le_stringBytes .text _) h

theorem FieldKey.within_of_bytes {max : UInt64} {key : FieldKey}
    (h : key.bytes.length ≤ max.toNat) : key.Within max := by
  rintro t rfl
  exact Nat.le_trans (length_le_stringBytes .text _) h

/-- **A literal that is written is the literal that is read.** -/
theorem Literal.bytes_at {name : String} {max : UInt64} (l : Literal) (hmax : l.Within max) :
    LiteralAt name max l l.bytes := by
  cases l with
  | int n =>
    obtain ⟨info, hh⟩ := intBytes_spelled n .minimal
    rw [Literal.bytes, ← List.append_nil (intBytes n .minimal)]
    exact .mk hh (.int rfl rfl)
  | bool b =>
    obtain ⟨info, hh⟩ := boolBytes_spelled b
    rw [Literal.bytes, ← List.append_nil (boolBytes b)]
    exact .mk hh (.bool (truth_bool b info name))
  | text t =>
    obtain ⟨h, front, hb, hh, hm, hp, _⟩ := stringBytes_read .text (hmax t rfl)
    rw [Literal.bytes, textBytes, hb]
    exact .mk hh (.text hm hp)

/-- The arguments of signed integers. -/
theorem le_maxSigned_iff {m : UInt64} : m ≤ maxSigned ↔ m < 0x8000000000000000 := by
  have hnext : (0x8000000000000000 : UInt64).toNat = maxSigned.toNat + 1 := by decide
  rw [UInt64.le_iff_toNat_le, UInt64.lt_iff_toNat_lt]
  omega

/-- The sign and the magnitude of an integer are found as the key that it is. -/
theorem KeyAt.integer {h : Head} {n : Int64} {front : Bytes} (hh : h.Spelled front)
    (hm : h.major = if 0 ≤ n then .unsigned else .negative) (ha : h.arg = some (wireMagnitude n)) :
    KeyAt r (.field (.int n)) front := by
  have hle := le_maxSigned_iff.mpr (wireMagnitude_lt n)
  by_cases hn : 0 ≤ n
  · have hkey := KeyAt.unsigned (r := r) hh (by rw [hm, if_pos hn]) ha
    rwa [if_pos hle, toInt64_wireMagnitude hn] at hkey
  · have hkey := KeyAt.negative (r := r) hh (by rw [hm, if_neg hn]) ha
    rwa [if_pos hle, complement_wireMagnitude hn] at hkey

/-- **A key that is written is the key that is read.** -/
theorem FieldKey.bytes_at (key : FieldKey) (hmax : key.Within r.options.maxStringLength) :
    KeyAt r (.field key) key.bytes := by
  cases key with
  | int n =>
    obtain ⟨info, hh⟩ := intBytes_spelled n .minimal
    exact .integer hh rfl rfl
  | text t =>
    obtain ⟨h, front, hb, hh, hm, hp, _⟩ := stringBytes_read .text (hmax t rfl)
    rw [FieldKey.bytes, textBytes, hb]
    exact .text hh hm hp (readText_textPayload t _)

end CborSchema
