import Chiptune.Instruction
import Chiptune.Proofs.Results

/-!
# Instructions and their tokens

The tokens of an instruction are read back as this instruction, whatever follows them
(`Instruction.next_encode`), so a stream that was written instruction by instruction is taken apart
again by `disassemble` (`disassemble_encodeAll`). For this an instruction must carry the operands
of its operation (`Instruction.HasOperands`).

`Complete k ts` says the same of tokens alone: `ts` is a sequence of complete instructions, with
labels only between them. A complete stream can be cut before every token that begins an
instruction (`Complete.split`), and what follows a complete start of it is complete
(`Complete.rest`).
-/

set_option autoImplicit false

namespace Chiptune

/-! ## Lead bytes -/

/-- A statement about all bytes is one about 256 numbers. -/
theorem forall_byte {p : UInt8 → Prop} (h : ∀ n < 256, p (UInt8.ofNat n)) (b : UInt8) : p b := by
  have hb := h b.toNat b.toNat_lt
  rwa [UInt8.ofNat_toNat] at hb

namespace Kernel

theorem decode_noteByte {k : Kernel} {value byte : UInt8} (h : k.noteByte value = some byte) :
    k.decode byte = .note value false := by
  have key : ∀ v b, k.noteByte v = some b → k.decode b = .note v false := by
    cases k <;> exact forall_byte (by decide +kernel)
  exact key value byte h

theorem decode_packedNote {k : Kernel} {value byte : UInt8} (hk : k.packsEmptyRows = true)
    (h : k.noteByte value = some byte) : k.decode (byte ||| 1) = .note value true := by
  have key : k.packsEmptyRows = true →
      ∀ v b, k.noteByte v = some b → k.decode (b ||| 1) = .note v true := by
    cases k
    · exact fun _ => forall_byte (by decide +kernel)
    · exact fun h => absurd h (by decide)
  exact key hk value byte h

theorem decode_instrumentByte {k : Kernel} {slot : Nat} (h : slot < instrumentSlotLimit) :
    k.decode (k.instrumentByte slot) = .instrument (UInt8.ofNat slot) := by
  have key : ∀ n < instrumentSlotLimit,
      k.decode (k.instrumentByte n) = .instrument (UInt8.ofNat n) := by
    cases k <;> decide +kernel
  exact key slot h

theorem decode_emptyRowsByte {k : Kernel} {count : Nat} (h₁ : 1 ≤ count)
    (h₂ : count ≤ k.maxEmptyRows) : k.decode (k.emptyRowsByte count) = .emptyRows count := by
  have key : ∀ n < k.maxEmptyRows + 1, 1 ≤ n →
      k.decode (k.emptyRowsByte n) = .emptyRows n := by
    cases k <;> decide +kernel
  exact key count (by omega) h₁

/-- The stop byte, with or without a packed row. -/
theorem decode_stop {k : Kernel} {emptyRow : Bool} (h : emptyRow = true → k.packsEmptyRows = true) :
    k.decode (if emptyRow then 1 else 0) = .note 0 emptyRow := by
  cases k <;> cases emptyRow <;> first | rfl | exact absurd (h rfl) (by decide)

end Kernel

/-! ## Reading an instruction back -/

/-- Byte of a token that begins an instruction. -/
def Token.lead? : Token → Option UInt8
  | opcode b | note b => some b
  | _ => none

namespace Lead

/-- Numbers of the operand bytes and addresses that a lead byte asks for; none if no instruction
begins with the byte. -/
def operands : Lead → Option (Nat × Nat)
  | op o => some (o.operandBytes, o.operandAddresses)
  | invalid => none
  | _ => some (0, 0)

/-- The instruction that a lead byte begins with these operands. -/
def instruction (bytes : List UInt8) (targets : List Target) : Lead → Option Instruction
  | note value emptyRow => some (.note value emptyRow)
  | instrument slot => some (.instrument slot.toNat)
  | emptyRows count => some (.emptyRows count)
  | op o => some (.op o bytes targets)
  | invalid => none

theorem instruction_of_operands {d : Lead} {n m : Nat} {bytes : List UInt8} {targets : List Target}
    (h : d.operands = some (n, m)) : ∃ i, d.instruction bytes targets = some i := by
  cases d <;> first | exact ⟨_, rfl⟩ | cases h

end Lead

namespace Instruction

/-- The instruction carries as many operands as its operation has, and begins with a byte that the
kernel knows. -/
def HasOperands : Instruction → Prop
  | op o bytes addresses =>
    bytes.length = o.operandBytes ∧ addresses.length = o.operandAddresses
  | invalid _ => False
  | _ => True

instance : DecidablePred HasOperands
  | op o bytes addresses => inferInstanceAs
      (Decidable (bytes.length = o.operandBytes ∧ addresses.length = o.operandAddresses))
  | invalid _ => .isFalse id
  | label _ | note _ _ | instrument _ | emptyRows _ => .isTrue trivial

theorem takeBytes_append (bytes : List UInt8) (rest : List Token) :
    takeBytes bytes.length (bytes.map Token.byte ++ rest) = (bytes, rest) := by
  induction bytes with
  | nil => simp [takeBytes]
  | cons b bytes ih => simp [takeBytes, ih]

theorem takeAddresses_append (targets : List Target) (rest : List Token) :
    takeAddresses targets.length (targets.map Token.address ++ rest) = (targets, rest) := by
  induction targets with
  | nil => simp [takeAddresses]
  | cons t targets ih => simp [takeAddresses, ih]

theorem next_of_lead {token : Token} {lead : UInt8} (k : Kernel) (rest : List Token)
    (h : token.lead? = some lead) : next k token rest = decode k token lead rest := by
  cases token <;> simp_all [Token.lead?, next]

/-- **A lead byte and the operands that it asks for are read as their instruction**, whatever
follows them. -/
theorem next_operands {k : Kernel} {token : Token} {lead : UInt8} {bytes : List UInt8}
    {targets : List Target} {i : Instruction} (hl : token.lead? = some lead)
    (ho : (k.decode lead).operands = some (bytes.length, targets.length))
    (hi : (k.decode lead).instruction bytes targets = some i) (rest : List Token) :
    next k token (bytes.map Token.byte ++ targets.map Token.address ++ rest) = (i, rest) := by
  rw [next_of_lead k _ hl, decode]
  cases hd : k.decode lead with
  | op o =>
    rw [hd] at ho hi
    simp only [Lead.operands, Option.some.injEq, Prod.mk.injEq] at ho
    simp only [Lead.instruction, Option.some.injEq] at hi
    simp only [ho.1, ho.2, List.append_assoc, takeBytes_append, takeAddresses_append, hi]
  | invalid =>
    rw [hd] at hi
    cases hi
  | _ =>
    rw [hd] at ho hi
    simp only [Lead.operands, Option.some.injEq, Prod.mk.injEq] at ho
    simp only [Lead.instruction, Option.some.injEq] at hi
    simp [List.eq_nil_of_length_eq_zero ho.1.symm, List.eq_nil_of_length_eq_zero ho.2.symm, hi]

/-- **What the tokens of an instruction are**: a label, or a lead byte that decodes to the
instruction with the operands behind it. -/
theorem encode_ok {k : Kernel} {i : Instruction} {ts : List Token} (hi : i.HasOperands)
    (h : i.encode k = .ok ts) :
    (∃ id, i = .label id ∧ ts = [.label id]) ∨
      ∃ (lead : UInt8) (bytes : List UInt8) (targets : List Target),
        ts = (if i.advancesRow then Token.note lead else Token.opcode lead) ::
          (bytes.map Token.byte ++ targets.map Token.address) ∧
        (k.decode lead).operands = some (bytes.length, targets.length) ∧
        (k.decode lead).instruction bytes targets = some i := by
  cases i with
  | label id =>
    cases h
    exact .inl ⟨id, rfl, rfl⟩
  | note value emptyRow =>
    simp only [encode] at h
    split at h
    · cases h
    rename_i hpack
    have hpack : emptyRow = true → k.packsEmptyRows = true := by simpa using hpack
    split at h
    · subst value
      cases h
      have hd := Kernel.decode_stop hpack
      exact .inr ⟨_, [], [], rfl, by rw [hd]; rfl, by rw [hd]; rfl⟩
    · split at h
      · rename_i byte hbyte
        cases h
        have hd : k.decode (byte ||| if emptyRow = true then 1 else 0) = .note value emptyRow := by
          cases emptyRow with
          | false => simpa using Kernel.decode_noteByte hbyte
          | true => exact Kernel.decode_packedNote (hpack rfl) hbyte
        exact .inr ⟨_, [], [], rfl, by rw [hd]; rfl, by rw [hd]; rfl⟩
      · cases h
  | instrument slot =>
    simp only [encode] at h
    split at h
    · rename_i hslot
      cases h
      have hlt : slot < 256 := Nat.lt_trans hslot (by decide)
      have hd := Kernel.decode_instrumentByte (k := k) hslot
      refine .inr ⟨_, [], [], rfl, by rw [hd]; rfl, ?_⟩
      rw [hd, Lead.instruction, UInt8.toNat_ofNat_of_lt' hlt]
    · cases h
  | emptyRows count =>
    simp only [encode] at h
    split at h
    · rename_i hcount
      cases h
      have hd := Kernel.decode_emptyRowsByte hcount.1 hcount.2
      exact .inr ⟨_, [], [], rfl, by rw [hd]; rfl, by rw [hd]; rfl⟩
    · cases h
  | op o bytes addresses =>
    simp only [encode] at h
    split at h
    · rename_i byte hbyte
      have hd := Kernel.decode_opcode hbyte
      cases h
      refine .inr ⟨byte, bytes, addresses, rfl, ?_, by rw [hd]; rfl⟩
      rw [hd, Lead.operands, hi.1, hi.2]
    · cases h
  | invalid token => exact hi.elim

/-- **The tokens of an instruction are read back as this instruction.** -/
theorem next_encode {k : Kernel} {i : Instruction} {ts : List Token} (hi : i.HasOperands)
    (h : i.encode k = .ok ts) (rest : List Token) :
    ∃ t tail, ts = t :: tail ∧ next k t (tail ++ rest) = (i, rest) := by
  rcases encode_ok hi h with ⟨id, rfl, rfl⟩ | ⟨lead, bytes, targets, rfl, ho, hinstr⟩
  · exact ⟨_, _, rfl, rfl⟩
  · refine ⟨_, _, rfl, next_operands ?_ ho hinstr rest⟩
    split <;> rfl

end Instruction

theorem disassemble_cons (k : Kernel) (t : Token) (rest : List Token) :
    disassemble k (t :: rest) =
      (Instruction.next k t rest).1 :: disassemble k (Instruction.next k t rest).2 := by
  rw [disassemble]

/-- The tokens of an instruction in front of a stream are one instruction of it. -/
theorem disassemble_encode_append {k : Kernel} {i : Instruction} {ts : List Token}
    (hi : i.HasOperands) (h : i.encode k = .ok ts) (rest : List Token) :
    disassemble k (ts ++ rest) = i :: disassemble k rest := by
  obtain ⟨t, tail, rfl, hn⟩ := Instruction.next_encode hi h rest
  rw [List.cons_append, disassemble_cons, hn]

theorem encodeAll_cons_ok {k : Kernel} {i : Instruction} {is : List Instruction} {ts : List Token}
    (h : Instruction.encodeAll k (i :: is) = .ok ts) :
    ∃ first others, i.encode k = .ok first ∧ Instruction.encodeAll k is = .ok others ∧
      ts = first ++ others := by
  obtain ⟨first, hfirst, h⟩ := bind_ok h
  obtain ⟨others, hothers, h⟩ := bind_ok h
  cases h
  exact ⟨first, others, hfirst, hothers, rfl⟩

/-- **A stream that was written instruction by instruction is taken apart again.** -/
theorem disassemble_encodeAll {k : Kernel} {is : List Instruction} {ts : List Token}
    (hi : ∀ i ∈ is, i.HasOperands) (h : Instruction.encodeAll k is = .ok ts) :
    disassemble k ts = is := by
  induction is generalizing ts with
  | nil =>
    cases h
    rw [disassemble]
  | cons i is ih =>
    obtain ⟨first, others, hfirst, hothers, rfl⟩ := encodeAll_cons_ok h
    rw [disassemble_encode_append (hi i List.mem_cons_self) hfirst,
      ih (fun j hj => hi j (List.mem_cons_of_mem _ hj)) hothers]

/-! ## Complete streams -/

/-- The tokens are exactly the operands that a lead byte asks for, bytes first. -/
def IsOperands (k : Kernel) (lead : UInt8) (ts : List Token) : Prop :=
  ∃ (bytes : List UInt8) (targets : List Target),
    (k.decode lead).operands = some (bytes.length, targets.length) ∧
      ts = bytes.map Token.byte ++ targets.map Token.address

/-- The tokens are a sequence of complete instructions, with labels only between them. -/
inductive Complete (k : Kernel) : List Token → Prop
  | nil : Complete k []
  | label {id : Nat} {rest : List Token} : Complete k rest → Complete k (.label id :: rest)
  | instruction {token : Token} {lead : UInt8} {operands rest : List Token} :
      token.lead? = some lead → IsOperands k lead operands → Complete k rest →
      Complete k (token :: (operands ++ rest))

/-- A token before which a stream can be cut: it begins an instruction or marks a position. -/
def Token.IsBoundary (t : Token) : Prop := t.startsInstruction = true ∨ t.isLabel = true

/-- The stream is empty or begins at a boundary. -/
def AtBoundary (ts : List Token) : Prop := ∀ t ∈ ts.head?, t.IsBoundary

theorem Token.startsInstruction_iff {t : Token} :
    t.startsInstruction = true ↔ ∃ lead, t.lead? = some lead := by
  cases t <;> simp [startsInstruction, lead?]

theorem IsOperands.not_boundary {k : Kernel} {lead : UInt8} {ts : List Token}
    (h : IsOperands k lead ts) : ∀ t ∈ ts, ¬ t.IsBoundary := by
  obtain ⟨bytes, targets, -, rfl⟩ := h
  intro t ht
  simp only [List.mem_append, List.mem_map] at ht
  rcases ht with ⟨b, -, rfl⟩ | ⟨a, -, rfl⟩ <;>
    simp [Token.IsBoundary, Token.startsInstruction, Token.isLabel]

/-- What a lead byte asks for has one length. -/
theorem IsOperands.length_eq {k : Kernel} {lead : UInt8} {ts ts' : List Token}
    (h : IsOperands k lead ts) (h' : IsOperands k lead ts') : ts.length = ts'.length := by
  obtain ⟨bytes, targets, ho, rfl⟩ := h
  obtain ⟨bytes', targets', ho', rfl⟩ := h'
  rw [ho] at ho'
  simp only [Option.some.injEq, Prod.mk.injEq] at ho'
  simp [ho'.1, ho'.2]

/-- A lead byte and what it asks for are one instruction, whatever follows. -/
theorem IsOperands.next {k : Kernel} {token : Token} {lead : UInt8} {ts : List Token}
    (h : IsOperands k lead ts) (hl : token.lead? = some lead) :
    ∃ i bytes targets, (k.decode lead).instruction bytes targets = some i ∧
      ∀ rest, Instruction.next k token (ts ++ rest) = (i, rest) := by
  obtain ⟨bytes, targets, ho, rfl⟩ := h
  obtain ⟨i, hi⟩ := Lead.instruction_of_operands ho
  exact ⟨i, bytes, targets, hi, Instruction.next_operands hl ho hi⟩

namespace Complete

variable {k : Kernel}

theorem atBoundary {ts : List Token} (h : Complete k ts) : AtBoundary ts := by
  intro t ht
  cases h with
  | nil => simp at ht
  | label =>
    cases ht
    exact .inr rfl
  | instruction hl =>
    cases ht
    exact .inl (Token.startsInstruction_iff.2 ⟨_, hl⟩)

theorem append {ts ts' : List Token} (h : Complete k ts) (h' : Complete k ts') :
    Complete k (ts ++ ts') := by
  induction h with
  | nil => exact h'
  | label _ ih => exact .label ih
  | instruction hl ho _ ih =>
    rw [List.cons_append, List.append_assoc]
    exact .instruction hl ho ih

/-- The first instruction of a complete stream, and the complete stream behind it. -/
theorem uncons {token : Token} {lead : UInt8} {ts : List Token} (h : Complete k (token :: ts))
    (hl : token.lead? = some lead) :
    ∃ operands rest, ts = operands ++ rest ∧ IsOperands k lead operands ∧ Complete k rest := by
  generalize hs : token :: ts = s at h
  cases h with
  | nil => cases hs
  | label =>
    cases hs
    cases hl
  | instruction hl' ho hr =>
    cases hs
    rw [hl] at hl'
    cases hl'
    exact ⟨_, _, rfl, ho, hr⟩

/-- **What follows a complete start of a complete stream is complete.** -/
theorem rest {ts ts' : List Token} (h : Complete k ts) (h' : Complete k (ts ++ ts')) :
    Complete k ts' := by
  induction h with
  | nil => exact h'
  | label _ ih =>
    generalize hs : Token.label _ :: _ ++ ts' = s at h'
    cases h' with
    | nil => cases hs
    | label h' =>
      cases hs
      exact ih h'
    | instruction hl =>
      injection hs with ht
      subst ht
      cases hl
  | @instruction token lead operands rest hl ho _ ih =>
    rw [List.cons_append, List.append_assoc] at h'
    obtain ⟨operands', rest', heq, ho', hr'⟩ := h'.uncons hl
    obtain ⟨rfl, rfl⟩ := List.append_inj heq (ho.length_eq ho')
    exact ih hr'

/-- **A complete stream can be cut at every boundary.** -/
theorem split {ts : List Token} (h : Complete k ts) {n : Nat} (hn : AtBoundary (ts.drop n)) :
    Complete k (ts.take n) ∧ Complete k (ts.drop n) := by
  induction h generalizing n with
  | nil => simpa using Complete.nil
  | @label id rest hr ih =>
    cases n with
    | zero => exact ⟨.nil, .label hr⟩
    | succ n => exact ⟨.label (ih hn).1, (ih hn).2⟩
  | @instruction token lead operands rest hl ho hr ih =>
    cases n with
    | zero => exact ⟨.nil, .instruction hl ho hr⟩
    | succ n =>
      rw [List.drop_succ_cons] at hn ⊢
      rw [List.take_succ_cons]
      by_cases hlt : n < operands.length
      · -- inside the operands there is no boundary
        rw [List.drop_append_of_le_length (Nat.le_of_lt hlt)] at hn
        have hmem : operands[n] ∈ operands := List.getElem_mem hlt
        refine absurd (hn operands[n] ?_) (ho.not_boundary _ hmem)
        simp [List.head?_append, List.head?_drop, List.getElem?_eq_getElem hlt]
      · have hle : operands.length ≤ n := Nat.le_of_not_lt hlt
        obtain ⟨m, rfl⟩ := Nat.exists_eq_add_of_le hle
        rw [List.drop_append] at hn ⊢
        rw [List.take_append]
        have e1 : operands.drop (operands.length + m) = [] := List.drop_eq_nil_of_le (by omega)
        have e2 : operands.take (operands.length + m) = operands :=
          List.take_of_length_le (by omega)
        rw [e1, Nat.add_sub_cancel_left, List.nil_append] at hn ⊢
        rw [e2]
        exact ⟨.instruction hl ho (ih hn).1, (ih hn).2⟩

/-- The tokens of an instruction can stand in front of a complete stream. -/
theorem encode_append {i : Instruction} {ts rest : List Token} (hi : i.HasOperands)
    (h : i.encode k = .ok ts) (hr : Complete k rest) : Complete k (ts ++ rest) := by
  rcases Instruction.encode_ok hi h with ⟨id, rfl, rfl⟩ | ⟨lead, bytes, targets, rfl, ho, -⟩
  · exact .label hr
  · exact .instruction (by split <;> rfl) ⟨bytes, targets, ho, rfl⟩ hr

/-- **A stream that was written instruction by instruction is complete.** -/
theorem encodeAll {is : List Instruction} {ts : List Token} (hi : ∀ i ∈ is, i.HasOperands)
    (h : Instruction.encodeAll k is = .ok ts) : Complete k ts := by
  induction is generalizing ts with
  | nil =>
    cases h
    exact .nil
  | cons i is ih =>
    obtain ⟨first, others, hfirst, hothers, rfl⟩ := encodeAll_cons_ok h
    exact encode_append (hi i List.mem_cons_self) hfirst
      (ih (fun j hj => hi j (List.mem_cons_of_mem _ hj)) hothers)

end Complete

end Chiptune
