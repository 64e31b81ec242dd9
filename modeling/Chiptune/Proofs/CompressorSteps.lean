import Chiptune.Proofs.Compression

/-!
# Steps of the compressor

The compressor goes through its source from left to right. Where it finds a match it writes a
reference and goes on behind the passage, elsewhere it copies a token. `Writes` is this run as a
relation, for every source whether it consists of complete instructions or not, so that what each
step keeps is kept by the run (`run_writes`, `compress_writes`).
-/

set_option autoImplicit false

namespace Chiptune

namespace Compressor

variable {opcode : UInt8} {minNotes : Nat} {source : List Token} {m : Match}

/-- From one output the compressor gets to another along a source. -/
inductive Writes (opcode : UInt8) (minNotes : Nat) : Output → List Token → Output → Prop
  | done (out : Output) : Writes opcode minNotes out [] out
  | copies {out out' : Output} {token : Token} {rest : List Token} :
      find out minNotes (token :: rest) = none →
      Writes opcode minNotes (copy out token) rest out' →
      Writes opcode minNotes out (token :: rest) out'
  | refers {out out' : Output} {source : List Token} {m : Match} :
      find out minNotes source = some m →
      Writes opcode minNotes (refer out opcode m) (source.drop m.length) out' →
      Writes opcode minNotes out source out'

/-- A match is at least as long as notes are asked for. -/
theorem Agrees.minNotes_le_length {cells : Array Cell} {target n : Nat}
    (h : Agrees cells minNotes target {} source m n) : minNotes ≤ n := by
  have hnotes : m.notes = noteCount (source.take n) := by simp [h.eq]
  calc
    minNotes ≤ m.notes := h.minNotes_le
    _ = noteCount (source.take n) := hnotes
    _ ≤ (source.take n).length := List.countP_le_length
    _ ≤ n := List.length_take_le n source

/-- **What the compressor returns is what its steps write.** -/
theorem run_writes (out : Output) (source : List Token) :
    Writes opcode minNotes out source (run opcode minNotes out 0 source) := by
  induction hn : source.length using Nat.strongRecOn generalizing source out with
  | ind len ih =>
    cases source with
    | nil => exact .done out
    | cons token rest =>
      rw [List.length_cons] at hn
      cases hf : find out minNotes (token :: rest) with
      | none =>
        rw [run_copy hf]
        exact .copies hf (ih rest.length (by omega) _ _ rfl)
      | some m =>
        have hpos := (find_agrees hf).2.pos
        rw [run_refer hf]
        refine .refers hf (ih _ ?_ _ _ rfl)
        rw [List.length_drop, List.length_cons]
        omega

end Compressor

open Compressor in
/-- A compressed stream is written from an empty output. -/
theorem compress_writes (k : Kernel) (minNotes : Nat) (stream : List Token) :
    ∃ opcode out, k.opcode .reference = some opcode ∧
      Writes opcode (max 1 minNotes) {} stream out ∧ compress k minNotes stream = out.tokens := by
  obtain ⟨opcode, hk⟩ := k.opcode_reference
  refine ⟨opcode, _, hk, run_writes {} stream, ?_⟩
  simp only [compress, hk]
  rfl

end Chiptune
