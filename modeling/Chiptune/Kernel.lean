/-!
# Playback kernels and their byte codes

A driver comes with one of two kernels. Both share the encodings of instruments and of runs of
empty rows; they differ in the notes that fit one byte, in the opcodes, and in the features they
implement. `Kernel.decode` reads the first byte of an instruction.

* `Kernel.decode_opcode`: an opcode is read back as its operation.
-/

set_option autoImplicit false

namespace Chiptune

/-- Distance between a note and its one-byte index. -/
def noteBias : UInt8 := 12

/-- Largest one-byte note index. -/
def noteWindow : UInt8 := 63

/-- Number of instrument slots that the instrument opcode can name. -/
def instrumentSlotLimit : Nat := 64

/-- Playback kernel. -/
inductive Kernel
  /-- Small driver: no expansions, speed tempo, few effects, packed notes. -/
  | classic
  /-- Full driver. -/
  | extended
  deriving DecidableEq

/-- Driver operations that have an opcode of their own. -/
inductive Op
  | extendedNote
  | slide
  | speed
  | groove
  | jump
  | halt
  | reference
  | release
  | volume
  | finePitch
  | vibratoOverride
  | clearPitchOverride
  | arpOverride
  | clearArpOverride
  | resetArp
  | duty
  | noteDelay
  | cutDelay
  | deltaCounter
  | fdsModSpeed
  | fdsModDepth
  deriving DecidableEq

namespace Op

/-- Every operation, in opcode order. -/
def all : List Op :=
  [extendedNote, slide, speed, groove, jump, halt, reference, release, volume, finePitch,
    vibratoOverride, clearPitchOverride, arpOverride, clearArpOverride, resetArp, duty, noteDelay,
    cutDelay, deltaCounter, fdsModSpeed, fdsModDepth]

theorem mem_all (op : Op) : op ∈ all := by cases op <;> decide

/-- Name shown in messages. -/
def name : Op → String
  | extendedNote => "extended_note"
  | slide => "slide"
  | speed => "speed"
  | groove => "groove"
  | jump => "jump"
  | halt => "halt"
  | reference => "reference"
  | release => "release"
  | volume => "volume"
  | finePitch => "fine_pitch"
  | vibratoOverride => "vibrato_override"
  | clearPitchOverride => "clear_pitch_override"
  | arpOverride => "arp_override"
  | clearArpOverride => "clear_arp_override"
  | resetArp => "reset_arp"
  | duty => "duty"
  | noteDelay => "note_delay"
  | cutDelay => "cut_delay"
  | deltaCounter => "delta_counter"
  | fdsModSpeed => "fds_mod_speed"
  | fdsModDepth => "fds_mod_depth"

/-- Number of plain operand bytes after the opcode. -/
def operandBytes : Op → Nat
  | slide => 3
  | fdsModSpeed => 2
  | extendedNote | speed | reference | volume | finePitch | duty | noteDelay | cutDelay
  | deltaCounter | fdsModDepth => 1
  | _ => 0

/-- Number of address operands after the operand bytes. -/
def operandAddresses : Op → Nat
  | groove | jump | reference | vibratoOverride | arpOverride => 1
  | _ => 0

/-- Whether the operation takes up a row like a note does. -/
def advancesRow : Op → Bool
  | extendedNote | slide | release => true
  | _ => false

end Op

/-- Meaning of the first byte of an instruction. -/
inductive Lead
  /-- A note, 0 for stop, and whether one empty row is packed into it. -/
  | note (value : UInt8) (emptyRow : Bool)
  | instrument (slot : UInt8)
  | emptyRows (count : Nat)
  | op (op : Op)
  | invalid
  deriving DecidableEq

namespace Kernel

def all : List Kernel := [classic, extended]

/-- Name in messages, options and reports. -/
def name : Kernel → String
  | classic => "classic"
  | extended => "extended"

/-- Opcode of an operation, `none` if the kernel lacks it. -/
def opcode : Kernel → Op → Option UInt8
  | extended, .extendedNote => some 0x40
  | extended, .slide => some 0x41
  | extended, .speed => some 0x42
  | extended, .groove => some 0x43
  | extended, .jump => some 0x44
  | extended, .halt => some 0x45
  | extended, .reference => some 0x46
  | extended, .release => some 0x47
  | extended, .volume => some 0x48
  | extended, .finePitch => some 0x49
  | extended, .vibratoOverride => some 0x4A
  | extended, .clearPitchOverride => some 0x4B
  | extended, .arpOverride => some 0x4C
  | extended, .clearArpOverride => some 0x4D
  | extended, .resetArp => some 0x4E
  | extended, .duty => some 0x4F
  | extended, .noteDelay => some 0x50
  | extended, .cutDelay => some 0x51
  | extended, .deltaCounter => some 0x52
  | extended, .fdsModSpeed => some 0x53
  | extended, .fdsModDepth => some 0x54
  | classic, .extendedNote => some 0xC1
  | classic, .speed => some 0xC3
  | classic, .jump => some 0xC5
  | classic, .halt => some 0xC7
  | classic, .reference => some 0xC9
  | classic, _ => none

/-- Whether the kernel implements an operation. -/
def supports (k : Kernel) (op : Op) : Bool := (k.opcode op).isSome

/-- Longest run of empty rows that one byte can describe. -/
def maxEmptyRows : Kernel → Nat
  | classic => 32
  | extended => 64

def allowsReleases : Kernel → Bool
  | classic => false
  | extended => true

def allowsExpansions : Kernel → Bool
  | classic => false
  | extended => true

/-- Whether bit 0 of a note says that one empty row follows. -/
def packsEmptyRows : Kernel → Bool
  | classic => true
  | extended => false

/-- Byte of a note index: classic notes leave bit 0 for the packed row. -/
def indexByte (k : Kernel) (index : UInt8) : UInt8 :=
  match k with
  | classic => index <<< 1
  | extended => index

/-- One-byte encoding of a note index from 1 to the window's end, as sample mappings use it. -/
def rawNoteByte (k : Kernel) (index : UInt8) : Option UInt8 :=
  if 1 ≤ index ∧ index ≤ noteWindow then some (k.indexByte index) else none

/-- One-byte encoding of a note, `none` outside the window. -/
def noteByte (k : Kernel) (note : UInt8) : Option UInt8 :=
  if noteBias ≤ note then k.rawNoteByte (note - noteBias) else none

/-- Encoding of an instrument slot. -/
def instrumentByte (_ : Kernel) (slot : Nat) : UInt8 :=
  (0x80 : UInt8) ||| (UInt8.ofNat slot <<< 1)

/-- Encoding of a run of empty rows. -/
def emptyRowsByte (_ : Kernel) (count : Nat) : UInt8 :=
  (0x81 : UInt8) ||| (UInt8.ofNat (count - 1) <<< 1)

/-- The operation that has a byte as its opcode. -/
def decodeOp (k : Kernel) (byte : UInt8) : Lead :=
  match Op.all.find? (fun op => k.opcode op == some byte) with
  | some op => .op op
  | none => .invalid

/-- Length of the run of empty rows that a byte describes. -/
def emptyRowsOf (byte : UInt8) : Nat := ((byte &&& 0x7F) >>> 1).toNat + 1

/-- Meaning of the first byte of an instruction. -/
def decode (k : Kernel) (byte : UInt8) : Lead :=
  if byte &&& 0x80 ≠ 0 ∧ byte &&& 1 = 0 then .instrument ((byte &&& 0x7F) >>> 1)
  else match k with
    | extended =>
      if byte ≤ 0x3F then .note (if byte = 0 then 0 else byte + noteBias) false
      else if byte ≤ 0x7F then k.decodeOp byte
      else .emptyRows (emptyRowsOf byte)
    | classic =>
      if byte ≤ 0x7F then
        let index := byte >>> 1
        .note (if index = 0 then 0 else index + noteBias) (byte &&& 1 != 0)
      else if byte ≤ 0xBF then .emptyRows (emptyRowsOf byte)
      else k.decodeOp byte

theorem decode_opcode {k : Kernel} {op : Op} {byte : UInt8} (h : k.opcode op = some byte) :
    k.decode byte = .op op := by
  cases k <;> cases op <;> simp only [opcode, reduceCtorEq, Option.some.injEq] at h <;> subst h <;>
    rfl

end Kernel

end Chiptune
