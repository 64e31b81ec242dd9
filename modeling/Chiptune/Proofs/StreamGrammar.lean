import Chiptune.Proofs.Passes
import Chiptune.Proofs.Streams

/-!
# The grammar of a generated stream

A driver knows a stream by its bytes alone: which of them begin instructions, how many operands
follow, and which instructions take up rows. A stream is well formed if this reading agrees with the
tokens that it was written as (`WellFormed`).

* `Kernel.rowsIn`: the instructions of a stretch of bytes that take up rows, as a driver counts them
  while it plays a reference.
* `Complete.rowsIn_encodedAll`: the bytes of complete instructions have as many as the stretch has
  note tokens.
* `generate_wellFormed`: **every generated stream is well formed**.
-/

set_option autoImplicit false

namespace Chiptune

/-- Instructions that take up rows in a sequence of bytes, up to the first byte that begins no
instruction. -/
def Kernel.rowsIn (k : Kernel) : List UInt8 → Nat
  | [] => 0
  | lead :: rest =>
    match (k.decode lead).operands with
    | some (bytes, words) =>
      (if (k.decode lead).advancesRow then 1 else 0) + k.rowsIn (rest.drop (bytes + 2 * words))
    | none => 0
termination_by bytes => bytes.length
decreasing_by
  simp only [List.length_cons, List.length_drop]
  omega

/-- A stream whose bytes say all that its tokens say. -/
structure WellFormed (k : Kernel) (tokens : List Token) : Prop where
  /-- The kernel knows every instruction. -/
  valid : ∀ token, .invalid token ∉ disassemble k tokens
  /-- Every operation has its operands, neither more nor fewer. -/
  operands : ∀ o bytes targets, .op o bytes targets ∈ disassemble k tokens →
    bytes.length = o.operandBytes ∧ targets.length = o.operandAddresses
  /-- The instructions, written again, are the stream. -/
  written : Instruction.encodeAll k (disassemble k tokens) = .ok tokens
  /-- The tokens that begin instructions are notes just where the instructions take up rows. -/
  leads : (tokens.filter Token.startsInstruction).map Token.isNote =
    ((disassemble k tokens).filter fun i => !i.isLabel).map Instruction.advancesRow
  /-- The bytes of a passage, wherever its addresses lie, have as many rows as it has notes. -/
  counts : ∀ before passage after, tokens = before ++ passage ++ after →
    AtBoundary (passage ++ after) → AtBoundary after →
    ∀ locate, k.rowsIn (Player.encodedAll locate passage) = noteCount passage
  /-- The last instruction is a jump or a halt, and no other one is. -/
  ends : ∃ body last, disassemble k tokens = body ++ [last] ∧ Driver.leaves last = true ∧
    ∀ i ∈ body, Driver.leaves i = false

namespace Complete

variable {k : Kernel} {tokens : List Token}

/-- A stretch between two boundaries of a complete stream is complete. -/
theorem passage {before passage after : List Token}
    (h : Complete k (before ++ passage ++ after)) (hstart : AtBoundary (passage ++ after))
    (hend : AtBoundary after) : Complete k passage := by
  rw [List.append_assoc] at h
  have hrest : Complete k (passage ++ after) := by
    simpa using (h.split (n := before.length) (by simpa using hstart)).2
  simpa using (hrest.split (n := passage.length) (by simpa using hend)).1

/-- The bytes of operands are as many as their lead byte asks for. -/
theorem length_encodedAll_operands (bytes : List UInt8) (targets : List Target)
    (locate : Target → Option UInt16) :
    (Player.encodedAll locate (bytes.map Token.byte ++ targets.map Token.address)).length =
      bytes.length + 2 * targets.length := by
  have haddresses : byteSize (targets.map Token.address) = 2 * targets.length := by
    induction targets with
    | nil => rfl
    | cons t targets ih =>
      rw [List.map_cons, byteSize, ih, List.length_cons, Token.byteSize]
      omega
  rw [Player.encodedAll_append, List.length_append, Player.encodedAll_bytes,
    Player.length_encodedAll, haddresses]

/-- **A driver that reads the bytes of complete instructions counts their note tokens.** -/
theorem rowsIn_encodedAll (hc : Complete k tokens) (htag : Player.Tagged k tokens)
    (locate : Target → Option UInt16) :
    k.rowsIn (Player.encodedAll locate tokens) = noteCount tokens := by
  induction hc with
  | nil => rw [Player.encodedAll, List.flatMap_nil, Kernel.rowsIn, noteCount, List.countP_nil]
  | label _ ih => exact ih fun t ht => htag t (List.mem_cons_of_mem _ ht)
  | @instruction token lead operands rest hl ho _ ih =>
    have hrest := ih fun t ht => htag t (by simp [ht])
    have hnote := htag token List.mem_cons_self lead hl
    have hlead : token.encoded locate = [lead] := by
      cases token <;> cases hl <;> rfl
    obtain ⟨bytes, targets, hoperands, rfl⟩ := ho
    have hlength := length_encodedAll_operands bytes targets locate
    rw [Player.noteCount_instruction token ⟨bytes, targets, hoperands, rfl⟩, hnote, ← hrest,
      Player.encodedAll, List.flatMap_cons, hlead, List.singleton_append, Kernel.rowsIn, hoperands]
    simp only
    rw [← Player.encodedAll, Player.encodedAll_append, ← hlength, List.drop_left]

/-- No lead byte begins a label. -/
theorem isLabel_instruction {d : Lead} {bytes : List UInt8} {targets : List Target}
    {i : Instruction} (h : d.instruction bytes targets = some i) : i.isLabel = false := by
  cases d <;> cases h <;> rfl

/-- **The tokens that begin instructions are notes just where the instructions take up rows.** -/
theorem leads (hc : Complete k tokens) (htag : Player.Tagged k tokens) :
    (tokens.filter Token.startsInstruction).map Token.isNote =
      ((disassemble k tokens).filter fun i => !i.isLabel).map Instruction.advancesRow := by
  induction hc with
  | nil => simp [disassemble]
  | @label id rest _ ih =>
    rw [disassemble_cons]
    exact ih fun t ht => htag t (List.mem_cons_of_mem _ ht)
  | @instruction token lead operands rest hl ho _ ih =>
    have hrest := ih fun t ht => htag t (by simp [ht])
    have hnote := htag token List.mem_cons_self lead hl
    have hstarts : token.startsInstruction = true := Token.startsInstruction_iff.2 ⟨lead, hl⟩
    have hoperands : operands.filter Token.startsInstruction = [] :=
      List.filter_eq_nil_iff.2 fun t ht hs => ho.not_boundary t ht (.inl hs)
    obtain ⟨i, bytes, targets, hi, hnext⟩ := ho.next hl
    rw [disassemble_cons, hnext, List.filter_cons_of_pos hstarts, List.filter_append, hoperands,
      List.filter_cons_of_pos (by simp [isLabel_instruction hi]), List.nil_append, List.map_cons,
      List.map_cons, hrest, hnote, Player.advancesRow_instruction hi]

/-- The labels among the tokens are those among the instructions. -/
theorem countP_isLabel (hc : Complete k tokens) :
    tokens.countP Token.isLabel = (disassemble k tokens).countP Instruction.isLabel := by
  induction hc with
  | nil => simp [disassemble]
  | @label id rest _ ih =>
    rw [disassemble_cons, List.countP_cons_of_pos (by rfl), ih]
    exact (List.countP_cons_of_pos (by rfl)).symm
  | @instruction token lead operands rest hl ho _ ih =>
    have htoken : token.isLabel = false := by
      cases token <;> first | rfl | cases hl
    have hoperands : operands.countP Token.isLabel = 0 :=
      List.countP_eq_zero.2 fun t ht hlabel => ho.not_boundary t ht (.inr hlabel)
    obtain ⟨i, bytes, targets, hi, hnext⟩ := ho.next hl
    rw [disassemble_cons, hnext, List.countP_cons_of_neg (by simp [htoken]), List.countP_append,
      hoperands, List.countP_cons_of_neg (by simp [isLabel_instruction hi]), ih, Nat.zero_add]

end Complete

namespace Stream

variable {job : Job}

/-- **Every generated stream is well formed.** -/
theorem generate_wellFormed {t t' : Tables} {tokens : List Token}
    (h : generate job t = (.ok tokens, t')) : WellFormed job.kernel tokens := by
  have hplayable := generate_playable h
  obtain ⟨rows, speeds, loopAt, pieces, v, -, -, -, hruns, htokens, -⟩ := generate_ok h
  have hoperands := hruns.hasOperands rfl v
  have hdisassemble := disassemble_encodeAll hoperands htokens
  exact
    { valid := by
        rw [hdisassemble]
        exact fun token hmem => hoperands _ hmem
      operands := by
        rw [hdisassemble]
        exact fun o bytes targets hmem => hoperands _ hmem
      written := by rw [hdisassemble, htokens]
      leads := hplayable.complete.leads hplayable.tagged
      counts := by
        rintro before passage after rfl hstart hend locate
        refine (hplayable.complete.passage hstart hend).rowsIn_encodedAll ?_ locate
        exact fun token htoken => hplayable.tagged token (by simp [htoken])
      ends := by
        refine ⟨_, _, hdisassemble, ?_, hruns.straight rfl job.kernel⟩
        unfold lastInstruction
        split <;> rfl }

/-- The tune of `loopedTune` for a driver that packs empty rows into notes, with a note outside of
the one-byte notes. -/
def packedTune : Job :=
  { loopedTune with
    kernel := .classic
    song :=
      { loopedTune.song with
        tracks := [{
          channel := .square1
          patterns := [{ notes := [
            { row := 0, value := some (.pitch 36), instrument := some 0 },
            { row := 2, value := some (.pitch 90) },
            { row := 3, value := some .stop }] }]
          order := [some 0, some 0] }] } }

theorem generate_wellFormed_packedTune :
    ∃ tokens t, generate packedTune {} = (.ok tokens, t) ∧ WellFormed .classic tokens := by
  obtain ⟨tokens, t, h⟩ : ∃ tokens t, generate packedTune {} = (.ok tokens, t) :=
    exists_of_generate (by decide +kernel)
  exact ⟨tokens, t, h, generate_wellFormed h⟩

end Stream

end Chiptune
