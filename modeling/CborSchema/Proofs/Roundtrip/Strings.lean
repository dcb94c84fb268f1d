import CborSchema.Proofs.Encode.Splitting
import CborSchema.Proofs.Roundtrip.Widths

/-!
# Strings cut and joined

A string is written as one piece or as chunks, and read from one piece or from any chunks at all, as
long as its whole payload is within the limit.

* `Head.Carries` -- the bytes behind a head carry a payload, however it is cut;
* `chunks_too_long`, `payload_joins` -- **a payload is joined exactly if it is within the limit**,
  and it is its length that is refused otherwise, in the chunk that exceeds the limit;
* `Scalar.StringOf`, `writeScalarOf_carries` -- the strings of a kind, and that they are written so;
* `readScalar_joins`, `readScalar_too_long` -- what is written is read back within the limit, and
  only there;
* `strings_are_cut_and_joined` -- **the cutter, the reader and the writer followed by the reader.**
-/

namespace CborSchema

open Decoder

/-! ## 1. Payloads that are carried -/

/-- The bytes behind the head of a string carry a payload: as one piece, or as definite chunks of
    the same major type, empty ones among them or not, up to a break. -/
inductive Head.Carries (h : Head) (payload : Bytes) : Bytes → Prop where
  | definite {n : UInt64} (hn : h.arg = some n) (hl : payload.length = n.toNat) :
      Carries h payload payload
  | indefinite {bytes : Bytes} (hn : h.arg = none) (hc : Chunks h.major bytes payload) :
      Carries h payload (bytes ++ [breakByte])

/-- A payload that is carried is held within a limit of its length. -/
theorem Head.Carries.payload {h : Head} {payload body : Bytes} {max : UInt64}
    (hc : h.Carries payload body) (hmax : payload.length ≤ max.toNat) :
    h.Payload max payload body := by
  cases hc with
  | definite hn hl => exact .definite hn hl hmax
  | indefinite hn hc => exact .indefinite hn hc hmax

theorem boundedLength_too_long {h : Head} {n max : UInt64} {field : String} (hn : h.arg = some n)
    (hmax : max.toNat < n.toNat) : h.boundedLength max field = .error (.tooLong field n max) := by
  have hlt : max < n := UInt64.lt_iff_toNat_lt.mpr hmax
  rw [Head.boundedLength, hn, Option.getD_some, if_pos hlt]

namespace Scan

/-- Where no break code is next, the choice falls on what reads an item. -/
theorem ifBreak_of_item {α : Type} {x y : Scan α} {bytes : Bytes} (h : StartsItem bytes) :
    (atBreak >>= fun b => if b then x else y) bytes = y bytes := by
  obtain ⟨b, tail, rfl, hb⟩ := h
  have hno : (some b == some breakByte) = false := by simpa using hb
  show (if some b == some breakByte then x else y) (b :: tail) = _
  rw [hno]
  rfl

/-- **Chunks that are too long together are refused** in the chunk that exceeds the limit. -/
theorem chunks_too_long {major : Major} {max : UInt64} {bytes payload : Bytes}
    (hc : Chunks major bytes payload) (context : String) {turns total : Nat}
    (htotal : total ≤ max.toNat) (hmax : max.toNat < total + payload.length)
    (ht : bytes.length < turns) (rest : Bytes) : ∃ k left,
      chunks major max context turns total (bytes ++ rest) =
        (.error (.tooLong context k max), left) := by
  induction hc generalizing turns total with
  | nil =>
    rw [List.length_nil] at hmax
    omega
  | cons hh hm hn hp hc ih =>
    rename_i h n front part bytes payload
    obtain ⟨t, rfl⟩ := Nat.exists_eq_add_of_lt ht
    have hchunk : ¬ (h.major ≠ major ∨ h.isIndefinite = true) := by
      simp [hm, Head.isIndefinite, hn]
    have hitem : StartsItem front :=
      hh.startsItem (by simp [Head.isBreak, Head.isIndefinite, hn])
    have hfront : 0 < front.length := List.length_pos_iff.mpr hh.ne_nil
    rw [chunks, List.append_assoc, List.append_assoc, ifBreak_of_item (hitem.append _),
      bind_of_ok (hh context _), if_neg hchunk]
    rcases Nat.lt_or_ge max.toNat n.toNat with hlong | hshort
    · rw [boundedLength_too_long hn hlong]
      exact ⟨n, _, rfl⟩
    · have hlen : h.boundedLength max context = .ok part.length :=
        (boundedLength_eq_ok hn).mpr ⟨hshort, hp⟩
      rw [hlen, bind_of_ok (s := ofExcept (.ok part.length)) rfl]
      by_cases hfit : max.toNat < total + part.length
      · rw [if_pos hfit]
        exact ⟨_, _, rfl⟩
      · simp only [List.length_append] at hmax ht
        have hrest : ∃ k left, chunks major max context ((front ++ (part ++ bytes)).length + t)
            (total + part.length) (bytes ++ rest) = (.error (.tooLong context k max), left) := by
          refine ih (by omega) (by omega) ?_
          simp only [List.length_append]
          omega
        obtain ⟨k, left, hrest⟩ := hrest
        rw [if_neg hfit, bind_of_ok (take_reads rfl context _), bind_apply, hrest]
        exact ⟨k, left, rfl⟩

/-- **A payload is joined exactly if it is within the limit.** -/
theorem payload_joins {h : Head} {payload body : Bytes} (hc : h.Carries payload body) (max : UInt64)
    (context : String) (rest : Bytes) :
    (payload.length ≤ max.toNat → Scan.payload h max context (body ++ rest) = (.ok payload, rest)) ∧
      (max.toNat < payload.length → ∃ k left,
        Scan.payload h max context (body ++ rest) = (.error (.tooLong context k max), left)) := by
  refine ⟨fun hmax => payload_reads (hc.payload hmax) context rest, fun hmax => ?_⟩
  cases hc with
  | definite hn hl =>
    rw [payload_definite hn, boundedLength_too_long hn (hl ▸ hmax)]
    exact ⟨_, _, rfl⟩
  | indefinite hn hc =>
    rw [payload_indefinite hn, List.append_assoc]
    exact chunks_too_long hc context (Nat.zero_le _) (by omega)
      (by simp only [List.length_append]; omega) _

end Scan

/-! ## 2. Strings of a shape -/

/-- The strings of a kind, each with its major type and its payload. -/
inductive Scalar.StringOf : Primitive → Scalar → Major → Bytes → Prop where
  | bytes (payload : Bytes) : StringOf .bytes (.bytes payload) .bytes payload
  | embedded (payload : Bytes) : StringOf .embedded (.bytes payload) .bytes payload
  | text (t : String) : StringOf .text (.text t) .text (textPayload t)

section shapes

variable {s : Shape} {p : Primitive} {x : Scalar} {m : Major} {payload : Bytes}

theorem checkSize_of_admits (h : ∀ size, s.size = some size → payload.length = size) :
    s.checkSize payload = .ok () := by
  rw [Shape.checkSize]
  cases hs : s.size with
  | none => rfl
  | some size => exact if_pos (h size hs)

/-- A string of an admitted size is written behind a head that its shape accepts. -/
theorem writePayload_carries (hm : m.hasOpenForm = true) (hsize : s.checkSize payload = .ok ())
    (hlen : payload.length < 2 ^ 63) (style : Option ItemStyle) {pieces : Nat → List Bytes}
    (hpieces : ∀ size, (pieces size).flatten = payload) : ∃ (h : Head) (front body : Bytes),
      s.writePayload style m payload pieces = .ok (front ++ body) ∧ h.Spelled front ∧ h.major = m ∧
        s.requireFraming h.isIndefinite = .ok () ∧ h.Carries payload body := by
  have hword : payload.length < UInt64.size := Nat.lt_trans hlen (by decide)
  have hframing : s.requireFraming (s.chunked style payload.length) = .ok () :=
    requireFraming_of_chunked
  obtain ⟨u, hu⟩ := writePayload_ok hsize style m pieces
  obtain ⟨-, hwritten⟩ := writePayload_eq_ok hu
  rw [hu, hwritten]
  by_cases hc : s.chunked style payload.length = true
  · have hchunks := @chunks_of_pieces m (pieces (s.chunkSize.getD Limits.chunk)) (by rwa [hpieces])
    rw [hpieces] at hchunks
    rw [hc] at hframing ⊢
    refine ⟨⟨m, 31, none⟩, _, _, ?_, indefiniteHead_spelled hm, rfl, hframing,
      .indefinite rfl hchunks⟩
    rw [if_pos rfl, chunkedBytes, List.append_assoc]
  · obtain ⟨h, n, front, hb, hh, hmajor, hn, hp⟩ := stringBytes_spelled m hword
    have hdefinite : h.isIndefinite = false := by
      rw [Head.isIndefinite, hn]
      rfl
    rw [Bool.not_eq_true] at hc
    rw [hc] at hframing ⊢
    refine ⟨h, front, payload, ?_, hh, hmajor, hdefinite ▸ hframing, .definite hn hp⟩
    rw [if_neg Bool.false_ne_true, hb]

/-- **A string of an admitted size is written**, behind a head that its shape accepts. -/
theorem writeScalarOf_carries (hx : x.StringOf p m payload) (hsize : s.checkSize payload = .ok ())
    (hlen : payload.length < 2 ^ 63) (style : Option ItemStyle) : ∃ (h : Head) (front body : Bytes),
      s.writeScalarOf style p x = .ok (front ++ body) ∧ h.Spelled front ∧ h.major = m ∧
        s.requireFraming h.isIndefinite = .ok () ∧ h.Carries payload body := by
  cases hx with
  | bytes | embedded =>
    exact writePayload_carries rfl hsize hlen style (byteChunks_flatten · payload)
  | text t =>
    rw [Shape.writeScalarOf]
    exact writePayload_carries rfl hsize hlen style (textChunks_flatten · t)

variable {r : Reading} {h : Head} {front body : Bytes}

/-- **A string within the limit is read back**, whatever head and chunks carry it. -/
theorem readScalar_joins (hx : x.StringOf p m payload) (hsize : s.checkSize payload = .ok ())
    (hh : h.Spelled front) (hm : h.major = m) (hf : s.requireFraming h.isIndefinite = .ok ())
    (hc : h.Carries payload body) (hmax : payload.length ≤ r.options.maxStringLength.toNat) :
    ∃ style, (s.readScalar r p).Reads (front ++ body)
      { name := s.name, content := .scalar x, style } := by
  have hafter : s.PayloadAfter r m h payload body := ⟨hm, hf, hc.payload hmax, hsize⟩
  have hscalar : s.ScalarAfter r h p x body := by
    cases hx with
    | bytes => exact .bytes hafter
    | embedded => exact .embedded hafter
    | text t => exact .text hafter (readText_textPayload t _)
  exact ⟨_, readScalar_reads (.mk hh hscalar)⟩

/-- **A string beyond the limit is refused**, whatever head and chunks carry it. -/
theorem readScalar_too_long (hx : x.StringOf p m payload) (hh : h.Spelled front) (hm : h.major = m)
    (hf : s.requireFraming h.isIndefinite = .ok ()) (hc : h.Carries payload body)
    (hmax : r.options.maxStringLength.toNat < payload.length) (rest : Bytes) :
    ∃ k, (s.readScalar r p (front ++ body ++ rest)).result =
      .error (.wire (.tooLong s.name k r.options.maxStringLength)) := by
  obtain ⟨k, left, hlong⟩ := (Scan.payload_joins hc r.options.maxStringLength s.name rest).2 hmax
  refine ⟨k, ?_⟩
  have hopen : (Decoder.ofExcept (s.requireFraming h.isIndefinite) (body ++ rest)).result =
      .ok ((), body ++ rest) := by
    rw [hf]
    rfl
  have hpayload : (s.readPayload r m h (body ++ rest)).result =
      .error (.wire (.tooLong s.name k r.options.maxStringLength)) := by
    rw [Shape.readPayload, if_neg (not_not.mpr hm),
      bind_of_ok hopen]
    exact bind_of_error (ofScan_of_error hlong)
  have hafter : (s.readAfterHead r h p (body ++ rest)).result =
      .error (.wire (.tooLong s.name k r.options.maxStringLength)) := by
    cases hx with
    | bytes | embedded | text => exact bind_of_error hpayload
  rw [Shape.readScalar, List.append_assoc, bind_of_ok (ofScan_eq_ok.mpr (hh s.name _))]
  exact bind_of_error hafter

end shapes

/-! ## 3. Cut and joined -/

/-- **Strings are cut and joined without loss.** The cutter of bytes and the cutter of texts end,
    without overflow, with the chunks that are written: none is empty, together they are the
    payload, and only a single character of a text may be longer than the size; a chunk of a text is
    a text. A payload is read off a head of any width and any chunks behind it exactly if it is
    within the limit. So a string of a size that its shape admits is written, and read back exactly
    if it is within the limit. -/
theorem strings_are_cut_and_joined :
    (∀ size : Nat, 1 ≤ size → size < UInt64.size →
      (∀ payload : Bytes, payload.length < 2 ^ 63 →
        splitChunks payload size false = some (byteChunks size payload) ∧
        (byteChunks size payload).flatten = payload ∧
        ∀ chunk ∈ byteChunks size payload, chunk ≠ [] ∧ chunk.length ≤ size) ∧
      ∀ text : String, (textPayload text).length < 2 ^ 63 →
        splitChunks (textPayload text) size true = some (textChunks size text) ∧
        (textChunks size text).flatten = textPayload text ∧
        ∀ chunk ∈ textChunks size text, chunk ≠ [] ∧ ∃ part : String, decodeText chunk = some part ∧
          (chunk.length ≤ size ∨ part.length = 1)) ∧
    (∀ (h : Head) (front payload body : Bytes) (max : UInt64) (context : String) (rest : Bytes),
      h.Spelled front → h.Carries payload body →
      let run := (Scan.head context >>= fun h => Scan.payload h max context) (front ++ body ++ rest)
      (payload.length ≤ max.toNat → run = (.ok payload, rest)) ∧
        (max.toNat < payload.length → ∃ k left, run = (.error (.tooLong context k max), left))) ∧
    ∀ (s : Shape) (style : Option ItemStyle) (p : Primitive) (x : Scalar) (m : Major)
      (payload : Bytes),
      x.StringOf p m payload → (∀ size, s.size = some size → payload.length = size) →
      payload.length < 2 ^ 63 → ∃ u, s.writeScalarOf style p x = .ok u ∧
        ∀ (r : Reading) (rest : Bytes),
          (payload.length ≤ r.options.maxStringLength.toNat → ∃ style,
            (s.readScalar r p (u ++ rest)).result =
              .ok ({ name := s.name, content := .scalar x, style }, rest)) ∧
          (r.options.maxStringLength.toNat < payload.length → ∃ k,
            (s.readScalar r p (u ++ rest)).result =
              .error (.wire (.tooLong s.name k r.options.maxStringLength))) := by
  refine ⟨fun size hsize hword => ⟨fun payload hlen => ?_, fun text hlen => ?_⟩, ?_, ?_⟩
  · exact ⟨splitChunks_bytes hsize hword hlen, byteChunks_flatten size payload,
      fun chunk hchunk => mem_byteChunks hsize hchunk⟩
  · exact ⟨splitChunks_text hsize hword hlen, textChunks_flatten size text,
      fun chunk hchunk => mem_textChunks hchunk⟩
  · intro h front payload body max context rest hh hc run
    have hrun : run = Scan.payload h max context (body ++ rest) := by
      show (Scan.head context >>= _) (front ++ body ++ rest) = _
      rw [List.append_assoc, Scan.bind_of_ok (hh context _)]
    rw [hrun]
    exact Scan.payload_joins hc max context rest
  · intro s style p x m payload hx hsize hlen
    have hadmits := checkSize_of_admits hsize
    obtain ⟨h, front, body, hu, hh, hm, hf, hc⟩ := writeScalarOf_carries hx hadmits hlen style
    refine ⟨_, hu, fun r rest => ⟨fun hmax => ?_, fun hmax => ?_⟩⟩
    · obtain ⟨style, hread⟩ := readScalar_joins hx hadmits hh hm hf hc hmax
      exact ⟨style, hread rest⟩
    · exact readScalar_too_long hx hh hm hf hc hmax rest

/-- A text of characters of one, two and three bytes is cut at size two into the three of them: the
    second would not fit behind the first, and the third is longer than the size. Its six bytes in
    chunks, one of them empty and one under a wider head, are read at a limit of six and refused at
    five. -/
theorem characters_are_not_cut :
    let payload : Bytes := textPayload "aé€"
    let front : Bytes := [0x7f]
    let body : Bytes := [0x61, 0x61, 0x60, 0x78, 0x02, 0xc3, 0xa9, 0x63, 0xe2, 0x82, 0xac, 0xff]
    let read (max : UInt64) :=
      (Scan.head "text" >>= fun h => Scan.payload h max "text") (front ++ body ++ [0x00])
    splitChunks payload 2 true = some [[0x61], [0xc3, 0xa9], [0xe2, 0x82, 0xac]] ∧
      textChunks 2 "aé€" = [[0x61], [0xc3, 0xa9], [0xe2, 0x82, 0xac]] ∧
      read 6 = (.ok payload, [0x00]) ∧ ∃ k left, read 5 = (.error (.tooLong "text" k 5), left) := by
  intro payload front body read
  have hpayload : payload = [0x61, 0xc3, 0xa9, 0xe2, 0x82, 0xac] := by decide
  have hlength : payload.length = 6 := congrArg List.length hpayload
  have hsplit : splitChunks payload 2 true = some (textChunks 2 "aé€") :=
    ((strings_are_cut_and_joined.1 2 (by decide) (by decide)).2 "aé€" (by
      rw [show (textPayload "aé€").length = 6 from hlength]
      decide)).1
  have hcut : splitChunks payload 2 true = some [[0x61], [0xc3, 0xa9], [0xe2, 0x82, 0xac]] := by
    rw [hpayload]
    decide
  have hfront : Head.Spelled ⟨.text, 31, none⟩ front := .opened (i := 0x7f) (by decide) (by decide)
  have hcarries : Head.Carries ⟨.text, 31, none⟩ payload body := by
    have hone : Head.Spelled _ [0x61] := .short (by decide)
    have hnone : Head.Spelled _ [0x60] := .short (by decide)
    have htwo : Head.Spelled _ [0x78, 0x02] := .long rfl rfl
    have hthree : Head.Spelled _ [0x63] := .short (by decide)
    have hlast : Chunks .text ([0x63] ++ ([0xe2, 0x82, 0xac] ++ [])) ([0xe2, 0x82, 0xac] ++ []) :=
      .cons hthree rfl rfl rfl .nil
    have hwide : Chunks .text ([0x78, 0x02] ++ ([0xc3, 0xa9] ++ _)) ([0xc3, 0xa9] ++ _) :=
      .cons htwo rfl rfl rfl hlast
    have hempty : Chunks .text ([0x60] ++ ([] ++ _)) ([] ++ _) := .cons hnone rfl rfl rfl hwide
    have hchunks : Chunks .text ([0x61] ++ ([0x61] ++ _)) ([0x61] ++ _) :=
      .cons hone rfl rfl rfl hempty
    rw [hpayload]
    exact Head.Carries.indefinite (h := ⟨.text, 31, none⟩) rfl hchunks
  have hread := fun max => strings_are_cut_and_joined.2.1 _ front payload body max "text" [0x00]
    hfront hcarries
  exact ⟨hcut, Option.some.inj (hsplit.symm.trans hcut), (hread 6).1 hlength.le,
    (hread 5).2 (hlength ▸ by decide)⟩

end CborSchema
