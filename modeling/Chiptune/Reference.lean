import Chiptune.Kernel
import Chiptune.Token

/-!
# Back-references

A reference instruction makes the driver play a number of notes from an earlier token of the same
stream and return. `expandReferences` replaces every reference by the tokens that it plays.
-/

set_option autoImplicit false

namespace Chiptune

namespace Reference

/-- Tokens that are played from the front of a stretch: `count` instructions that take up rows,
and the instructions between them. `played` of them are over. -/
def replay (count played : Nat) : List Token → List Token
  | [] => []
  | token :: rest =>
    if played = count ∧ (token.startsInstruction ∨ token.isLabel) then []
    else token :: replay count (if token.isNote then played + 1 else played) rest

/-- Tokens of a reference. The position of its target is cut to 32 bits. -/
def tokens (opcode : UInt8) (count target : Nat) : List Token :=
  [.opcode opcode, .byte (UInt8.ofNat count), .address (.offset (UInt32.ofNat target))]

/-- Expand the references of a stretch of a stream; a target behind the end of the stream has no
expansion. -/
def expandIn (stream : List Token) (opcode : Option UInt8) :
    List Token → Option (List Token)
  | .opcode op :: .byte count :: .address (.offset target) :: rest =>
    if some op = opcode then
      if stream.length < target.toNat then none
      else
        (expandIn stream opcode rest).map (replay count.toNat 0 (stream.drop target.toNat) ++ ·)
    else
      (expandIn stream opcode rest).map
        (.opcode op :: .byte count :: .address (.offset target) :: ·)
  | token :: rest => (expandIn stream opcode rest).map (token :: ·)
  | [] => some []

/-- Number of references in a stream. -/
def count (k : Kernel) : List Token → Nat
  | first :: rest =>
    let isReference := match first, rest with
      | .opcode op, .byte _ :: .address (.offset _) :: _ => k.opcode .reference == some op
      | _, _ => false
    count k rest + if isReference then 1 else 0
  | [] => 0

end Reference

/-- The stream with every reference replaced by the tokens that it plays. -/
def expandReferences (k : Kernel) (stream : List Token) : Option (List Token) :=
  Reference.expandIn stream (k.opcode .reference) stream

end Chiptune
