import Chiptune.Error
import Chiptune.Kernel
import Chiptune.Token

/-!
# Instructions

A channel stream is a sequence of instructions. `Instruction.encode` gives the tokens of one, and
`disassemble` splits a stream of tokens into instructions.
-/

set_option autoImplicit false

namespace Chiptune

/-- Instruction of a channel stream. -/
inductive Instruction
  /-- Position marker. -/
  | label (id : Nat)
  /-- A note, 0 for stop, and whether one empty row is packed into it. -/
  | note (value : UInt8) (emptyRow : Bool)
  | instrument (slot : Nat)
  | emptyRows (count : Nat)
  | op (op : Op) (bytes : List UInt8) (addresses : List Target)
  /-- Token that begins no instruction. -/
  | invalid (token : Token)
  deriving DecidableEq

namespace Instruction

/-- Whether the instruction takes up rows. -/
def advancesRow : Instruction → Bool
  | note .. | emptyRows _ => true
  | op o .. => o.advancesRow
  | _ => false

/-- Whether the instruction is a one-byte note or stop. -/
def isNote : Instruction → Bool
  | note .. => true
  | _ => false

/-- Tokens of an instruction; a fault if the kernel has no encoding for it. -/
def encode (k : Kernel) : Instruction → Except Fault (List Token)
  | label id => .ok [.label id]
  | note value emptyRow =>
    if emptyRow && !k.packsEmptyRows then .error .instruction
    else
      let flag : UInt8 := if emptyRow then 1 else 0
      if value = 0 then .ok [.note flag]
      else match k.noteByte value with
        | some byte => .ok [.note (byte ||| flag)]
        | none => .error .instruction
  | instrument slot =>
    if slot < instrumentSlotLimit then .ok [.opcode (k.instrumentByte slot)]
    else .error .instruction
  | emptyRows count =>
    if 1 ≤ count ∧ count ≤ k.maxEmptyRows then .ok [.note (k.emptyRowsByte count)]
    else .error .instruction
  | op o bytes addresses =>
    match k.opcode o with
    | some byte =>
      let lead := if o.advancesRow then Token.note byte else Token.opcode byte
      .ok (lead :: bytes.map Token.byte ++ addresses.map Token.address)
    | none => .error .instruction
  | invalid token => .ok [token]

/-- Tokens of a sequence of instructions. -/
def encodeAll (k : Kernel) : List Instruction → Except Fault (List Token)
  | [] => .ok []
  | i :: rest => do
    let first ← i.encode k
    let others ← encodeAll k rest
    .ok (first ++ others)

/-- Up to a number of operand bytes at the front of a stream, and what follows them. -/
def takeBytes : Nat → List Token → List UInt8 × List Token
  | n + 1, .byte b :: rest =>
    let (bytes, rest) := takeBytes n rest
    (b :: bytes, rest)
  | _, rest => ([], rest)

/-- Up to a number of address operands at the front of a stream, and what follows them. -/
def takeAddresses : Nat → List Token → List Target × List Token
  | n + 1, .address t :: rest =>
    let (targets, rest) := takeAddresses n rest
    (t :: targets, rest)
  | _, rest => ([], rest)

theorem length_takeBytes (n : Nat) (ts : List Token) :
    (takeBytes n ts).2.length ≤ ts.length := by
  fun_induction takeBytes n ts with
  | case1 n b rest bytes left h ih =>
    rw [h] at ih
    exact Nat.le_succ_of_le ih
  | case2 => exact Nat.le_refl _

theorem length_takeAddresses (n : Nat) (ts : List Token) :
    (takeAddresses n ts).2.length ≤ ts.length := by
  fun_induction takeAddresses n ts with
  | case1 n t rest targets left h ih =>
    rw [h] at ih
    exact Nat.le_succ_of_le ih
  | case2 => exact Nat.le_refl _

/-- The instruction that a leading byte begins, with its operands from the stream behind it. -/
def decode (k : Kernel) (token : Token) (byte : UInt8) (rest : List Token) :
    Instruction × List Token :=
  match k.decode byte with
  | .note value emptyRow => (.note value emptyRow, rest)
  | .instrument slot => (.instrument slot.toNat, rest)
  | .emptyRows count => (.emptyRows count, rest)
  | .op o =>
    let (bytes, rest) := takeBytes o.operandBytes rest
    let (addresses, rest) := takeAddresses o.operandAddresses rest
    (.op o bytes addresses, rest)
  | .invalid => (.invalid token, rest)

/-- The first instruction of a stream and what follows it. -/
def next (k : Kernel) : Token → List Token → Instruction × List Token
  | .label id, rest => (.label id, rest)
  | .opcode b, rest => decode k (.opcode b) b rest
  | .note b, rest => decode k (.note b) b rest
  | token, rest => (.invalid token, rest)

theorem length_decode (k : Kernel) (t : Token) (b : UInt8) (rest : List Token) :
    (decode k t b rest).2.length ≤ rest.length := by
  unfold decode
  split <;> simp
  exact Nat.le_trans (length_takeAddresses _ _) (length_takeBytes _ _)

theorem length_next (k : Kernel) (t : Token) (rest : List Token) :
    (next k t rest).2.length ≤ rest.length := by
  unfold next
  split <;> simp [length_decode]

end Instruction

/-- Instructions of a stream. -/
def disassemble (k : Kernel) : List Token → List Instruction
  | [] => []
  | token :: rest =>
    let step := Instruction.next k token rest
    step.1 :: disassemble k step.2
termination_by tokens => tokens.length
decreasing_by
  have := Instruction.length_next k token rest
  simp only [List.length_cons]
  omega

end Chiptune
