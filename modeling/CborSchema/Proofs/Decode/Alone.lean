import CborSchema.Proofs.Decode.Boundaries
import CborSchema.Proofs.Shape.Checked

/-!
# Runs of their own

What a run reads below a value is what another run, started there, reads.

* `DecodeError.forgetDepth`, `SameButDepth` -- an error up to the nesting that a refusal names;
* `Codec.read_sameButDepth` -- the nesting a run starts with does not matter, but the nesting that
  is left does: the reason a nested read is the same as one that starts anew;
* `DecodeOptions.finish`, `Codec.decode_eq_ok` -- what a run does behind the value;
* `Codec.trial` -- the bytes of an item decoded alone and completely.
-/

namespace CborSchema

open Decoder

/-! ## 1. Errors up to a number -/

namespace DecodeError

mutual

/-- An error up to the nesting that a refusal names. -/
def forgetDepth : DecodeError → DecodeError
  | .wire (.tooDeep _) => .wire (.tooDeep 0)
  | .noMatchingCandidate type failures => .noMatchingCandidate type (forgetDepths failures)
  | e => e
termination_by structural e => e

/-- The failures of candidates up to the nestings they name. -/
def forgetDepths : List (String × DecodeError) → List (String × DecodeError)
  | [] => []
  | f :: fs => forgetDepthOf f :: forgetDepths fs
termination_by structural fs => fs

/-- The failure of a candidate up to the nesting it names. -/
def forgetDepthOf : String × DecodeError → String × DecodeError
  | (candidate, e) => (candidate, e.forgetDepth)
termination_by structural f => f

end

theorem forgetDepth_config_iff {e : DecodeError} {f : ConfigError} :
    e.forgetDepth = .config f ↔ e = .config f := by
  constructor
  · intro h
    unfold forgetDepth at h
    split at h
    · cases h
    · cases h
    · exact h
  · rintro rfl
    rfl

theorem forgetDepths_eq {fs gs : List (String × DecodeError)}
    (h : List.Forall₂ (fun f g => f.1 = g.1 ∧ f.2.forgetDepth = g.2.forgetDepth) fs gs) :
    forgetDepths fs = forgetDepths gs := by
  induction h with
  | nil => rfl
  | cons hfg _ ih =>
    rename_i f g fs gs _
    rw [forgetDepths, forgetDepths, ih]
    obtain ⟨n, e⟩ := f
    obtain ⟨m, e'⟩ := g
    rw [forgetDepthOf, forgetDepthOf, hfg.2, show n = m from hfg.1]

end DecodeError

/-- Errors equal up to the nesting they name. -/
def SameButDepth (e f : DecodeError) : Prop := e.forgetDepth = f.forgetDepth

theorem sameButDepth_relation : ErrorRelation SameButDepth where
  plain _ _ := rfl
  union name fs gs h := by
    rw [SameButDepth, DecodeError.forgetDepth, DecodeError.forgetDepth]
    exact congrArg _ (DecodeError.forgetDepths_eq (h.imp fun f g hfg => ⟨hfg.1, hfg.2.1⟩))
  config e f h c := by
    rw [← DecodeError.forgetDepth_config_iff, h, DecodeError.forgetDepth_config_iff]

/-! ## 2. Runs -/

/-- **The nesting a run started with does not matter**, only the nesting that is left. -/
theorem Codec.read_sameButDepth (c : Codec) {o o' : DecodeOptions} (ho : o.SameLengths o')
    (depth : Nat) (t : TypeExpr) :
    Decoder.Alike SameButDepth (c.read o depth t) (c.read o' depth t) := by
  have hall : c.ClosedUnder SameButDepth fun _ => True :=
    ⟨fun _ _ _ _ _ _ => trivial, fun _ _ _ _ => rfl⟩
  have hdeep : SameButDepth (.wire (.tooDeep o.maxDepth)) (.wire (.tooDeep o'.maxDepth)) := rfl
  exact Codec.read_alike sameButDepth_relation hdeep ho hall depth trivial

/-- What is read there is read whatever nesting the run started with. -/
theorem Codec.read_reads_sameLengths {c : Codec} {o o' : DecodeOptions} (ho : o.SameLengths o')
    {depth : Nat} {t : TypeExpr} {u : Bytes} {v : Value} (h : (c.read o depth t).Reads u v) :
    (c.read o' depth t).Reads u v := by
  intro rest
  have halike := c.read_sameButDepth ho depth t (u ++ rest)
  rw [h rest] at halike
  generalize (c.read o' depth t (u ++ rest)).result = x at halike ⊢
  cases halike with
  | ok => rfl

/-- What a run does with the value it read and the bytes behind it. -/
def DecodeOptions.finish (o : DecodeOptions) (p : Value × Bytes) : Except DecodeError Value :=
  if o.allowTrailing || p.2.isEmpty then .ok p.1 else .error (.trailingBytes p.2.length)

theorem Codec.decode_finish (c : Codec) (o : DecodeOptions) (t : TypeExpr) (bytes : Bytes) :
    (c.decode t bytes o).result = (c.read o o.maxDepth t bytes).result >>= o.finish := by
  rw [decode, Outcome.result_bind]
  congr 1
  funext ⟨v, rest⟩
  show (if o.allowTrailing || rest.isEmpty then pure v
    else Outcome.fail (.trailingBytes rest.length)).result = o.finish (v, rest)
  rw [DecodeOptions.finish]
  split
  · rfl
  · rfl

/-- **A run answers with what it reads off its bytes**, up to bytes that may be left. -/
theorem Codec.decode_eq_ok {c : Codec} {o : DecodeOptions} {t : TypeExpr} {bytes : Bytes}
    {v : Value} : (c.decode t bytes o).result = .ok v ↔ ∃ used rest, bytes = used ++ rest ∧
      (o.allowTrailing = true ∨ rest = []) ∧ (c.read o o.maxDepth t).Reads used v := by
  rw [c.decode_finish]
  constructor
  · intro h
    obtain ⟨⟨w, rest⟩, hread, h⟩ := Except.bind_eq_ok h
    obtain ⟨used, hbytes, hreads, _⟩ := c.sound o o.maxDepth t bytes w rest hread
    rw [DecodeOptions.finish] at h
    split at h
    · rename_i htrailing
      cases h
      exact ⟨used, rest, hbytes, by simpa using htrailing, hreads⟩
    · cases h
  · rintro ⟨used, rest, rfl, htrailing, hreads⟩
    rw [hreads rest]
    show o.finish (v, rest) = .ok v
    rw [DecodeOptions.finish, if_pos (by simpa using htrailing)]

/-- A run on one item reads all of it. -/
theorem decode_item {c : Codec} {o : DecodeOptions} {t : TypeExpr} {b : Bytes} (hb : IsItem b)
    {v : Value} : (c.decode t b o).result = .ok v ↔ (c.read o o.maxDepth t).Reads b v := by
  rw [Codec.decode_eq_ok]
  constructor
  · rintro ⟨used, rest, rfl, _, hread⟩
    have hused : IsItem used := ((c.read_partAt o o.maxDepth t).whole hread.whole).2.item
    have hsame := hused.eq_of_append (u := rest) (v := []) hb (by rw [List.append_nil])
    rwa [← hsame]
  · intro h
    exact ⟨b, [], (List.append_nil b).symm, .inr rfl, h⟩

/-- The bytes of an item decoded alone and completely, with options that differ in nothing but the
    nesting. -/
def Codec.trial (c : Codec) (o : DecodeOptions) (depth : Nat) (t : TypeExpr) (span : Bytes) :
    Except DecodeError Value :=
  (c.decode t span { o with maxDepth := depth, allowTrailing := false }).result

/-- **What is read below a value is what its bytes decode to alone.** -/
theorem Codec.trial_of_reads {c : Codec} {o : DecodeOptions} {depth : Nat} {t : TypeExpr}
    {span : Bytes} {v : Value} (h : (c.read o depth t).Reads span v) :
    c.trial o depth t span = .ok v := by
  have ho : o.SameLengths { o with maxDepth := depth, allowTrailing := false } := ⟨rfl, rfl⟩
  exact decode_eq_ok.mpr
    ⟨span, [], (List.append_nil _).symm, .inr rfl, read_reads_sameLengths ho h⟩

theorem Codec.trial_alike (c : Codec) (o : DecodeOptions) (depth : Nat) {s : Shape} {t : TypeExpr}
    (ht : t ∈ s.candidates) {span : Bytes} (hspan : IsItem span) :
    CborSchema.Alike SameButDepth (((c.reading o depth).part t).whole span).result
      (c.trial o depth t span) := by
  have ho : o.SameLengths { o with maxDepth := depth, allowTrailing := false } := ⟨rfl, rfl⟩
  have hr : (c.reading o depth).Alike SameButDepth s
      (c.reading { o with maxDepth := depth, allowTrailing := false } depth) :=
    ⟨rfl, rfl, rfl, fun t _ => c.read_sameButDepth ho depth t⟩
  exact whole_alike hr (c.sound o depth) (Shape.candidate_mem ht) hspan

end CborSchema
