import Chiptune.Capacity
import Chiptune.Curve

/-!
# Playback of encoded curves

`Curve.play` reads an encoded curve the way the driver does, one value per frame, and may release
the note at a frame. A read outside the bytes has no answer. `Curve.playKept` keeps the values.
-/

set_option autoImplicit false

namespace Chiptune.Curve

/-- State of a curve that plays. -/
structure Player where
  /-- Offset of the next record. -/
  position : Nat := 1
  /-- Frames left of the current run. -/
  runLeft : Nat := 0
  value : Int8 := 0
  halted : Bool := false
  deriving DecidableEq

/-- Follow jumps from an offset, at most `hops` of them and one more. The answer is the offset of
a record, `some none` where the curve halts, and `none` for a read outside the bytes. -/
def seek (bytes : Array UInt8) : Nat → Nat → Option (Option Nat)
  | hops, position => do
    let first ← bytes[position]?
    if first ≠ jump then return some position
    let target ← bytes[position + 1]?
    if target.toNat = position then return none
    match hops with
    | 0 => return none
    | hops + 1 => seek bytes hops target.toNat

/-- Release the note: playback goes on at the release entry point if there is one. -/
def Player.release (bytes : Array UInt8) (p : Player) : Option Player := do
  let entry ← bytes[0]?
  if entry = 0 then return p
  return { p with position := entry.toNat, runLeft := 0, halted := false }

/-- Read the next record once the current run is over. -/
def Player.fetch (bytes : Array UInt8) (p : Player) : Option Player := do
  if p.runLeft ≠ 0 ∨ p.halted then return p
  match ← seek bytes bytes.size p.position with
  | none => return { p with halted := true }
  | some position =>
    let first ← bytes[position]?
    if 0x80 ≤ first then
      return { p with position := position + 1, runLeft := 1, value := unbias first }
    let value ← bytes[position + 1]?
    return { p with position := position + 2, runLeft := first.toNat, value := unbias value }

/-- Play one frame; the state after the fetch holds the frame's value. -/
def Player.frame (bytes : Array UInt8) (released : Bool) (p : Player) : Option Player := do
  let p ← if released then p.release bytes else some p
  p.fetch bytes

/-- Values of a number of frames from a given one on. -/
def playFrom (bytes : Array UInt8) (releaseAt : Option Nat) :
    Nat → Nat → Player → Option (List Int8)
  | 0, _, _ => some []
  | count + 1, frame, p => do
    let p ← p.frame bytes (releaseAt == some frame)
    let rest ← playFrom bytes releaseAt count (frame + 1) { p with runLeft := p.runLeft - 1 }
    return p.value :: rest

/-- Values of the first frames of a curve whose note is released at a frame, or never. -/
def play (curve : List UInt8) (frames : Nat) (releaseAt : Option Nat) : Option (List Int8) :=
  playFrom curve.toArray releaseAt frames 0 {}

/-- A play whose values are kept, one byte each: it needs memory for all of them, and every read has
to be inside the bytes. -/
def playKept (curve : List UInt8) (frames : Nat) (releaseAt : Option Nat) :
    Except Fault (List Int8) := do
  Capacity.check 1 frames
  match play curve frames releaseAt with
  | some values => .ok values
  | none => .error .index

end Chiptune.Curve
