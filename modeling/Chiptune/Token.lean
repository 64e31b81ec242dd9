/-!
# Tokens of an instruction stream

Every byte that a channel stream will hold is one token, which carries the role of the byte in
its instruction, so that a stream can be split, searched and replayed without decoding it.
-/

set_option autoImplicit false

namespace Chiptune

/-- What an address operand points at. -/
inductive Target
  /-- A named symbol. -/
  | symbol (id : Nat)
  /-- A token of the same stream, by its position, which is a number of 32 bits. -/
  | offset (position : UInt32)
  deriving DecidableEq

/-- Element of an instruction stream. -/
inductive Token
  /-- Operand byte. -/
  | byte (value : UInt8)
  /-- First byte of an instruction that does not take up a row. -/
  | opcode (value : UInt8)
  /-- First byte of an instruction that takes up rows. -/
  | note (value : UInt8)
  /-- Position marker without a byte. -/
  | label (id : Nat)
  /-- Two-byte address operand. -/
  | address (target : Target)
  deriving DecidableEq

/-- Role of a token in its instruction. -/
inductive Role
  | plainByte
  | opcodeStart
  | noteBoundary
  | label
  | forwardReference
  deriving DecidableEq

/-- Name of a role. -/
def Role.name : Role → String
  | plainByte => "PlainByte"
  | opcodeStart => "OpcodeStart"
  | noteBoundary => "NoteBoundary"
  | label => "Label"
  | forwardReference => "ForwardReference"

namespace Token

/-- Role of a token in its instruction. -/
def role : Token → Role
  | byte _ => .plainByte
  | opcode _ => .opcodeStart
  | note _ => .noteBoundary
  | label _ => .label
  | address _ => .forwardReference

/-- Whether an instruction begins at the token. -/
def startsInstruction : Token → Bool
  | opcode _ | note _ => true
  | _ => false

/-- Whether the token begins an instruction that takes up rows. -/
def isNote : Token → Bool
  | note _ => true
  | _ => false

/-- Whether the token is a position marker. -/
def isLabel : Token → Bool
  | label _ => true
  | _ => false

/-- Bytes that the token takes in the compiled data. -/
def byteSize : Token → Nat
  | label _ => 0
  | address _ => 2
  | _ => 1

/-- Number that stands for the token in content hashes. -/
def code : Token → UInt32
  | byte b => b.toUInt32
  | opcode b => 0x100 ||| b.toUInt32
  | note b => 0x200 ||| b.toUInt32
  | label id => 0x10000000 ^^^ UInt32.ofNat id
  | address (.symbol id) => 0x20000000 ^^^ UInt32.ofNat id
  | address (.offset o) => 0x40000000 ^^^ o

/-- Whether the token can be played from another position of the stream. -/
def isReplayable : Token → Bool
  | label _ | address _ => false
  | _ => true

end Token

/-- Bytes that a stream takes in the compiled data. -/
def byteSize : List Token → Nat
  | [] => 0
  | token :: rest => token.byteSize + byteSize rest

/-- Number of instructions of a stream that take up rows. -/
def noteCount (tokens : List Token) : Nat := tokens.countP Token.isNote

end Chiptune
