import Chiptune.Envelope

/-!
# Vibrato curves

A vibrato is a looping pitch envelope that follows a sine. The phase moves by the vibrato's speed
each frame, in steps of 1/64 turn; the amplitude grows with the depth.
-/

set_option autoImplicit false

namespace Chiptune.Curve

/-- Phase steps of one turn. -/
def vibratoPhases : Nat := 64

/-- Amplitude of each depth. -/
def vibratoAmplitudes : List Nat := [0, 1, 2, 3, 4, 5, 7, 9, 11, 14, 17, 21, 26, 33, 42, 52]

/-- Sine of the phases of the first quarter turn, in units of 1/65536. -/
def quarterSine : List Nat :=
  [0, 6424, 12785, 19024, 25080, 30893, 36410, 41576, 46341, 50660, 54491, 57798, 60547, 62714,
    64277, 65220, 65536]

/-- Amplitude times the sine of a phase below one turn, rounded to the nearest integer. -/
def sineValue (amplitude phase : Nat) : Int :=
  let half := phase % 32
  let sine := quarterSine.getD (if half ≤ 16 then half else 32 - half) 0
  let size := (2 * amplitude * sine + 65536) / 131072
  if phase < 32 then size else -size

/-- Pitch envelope of a vibrato. -/
def vibrato (speed depth : UInt8) : Envelope :=
  let speed := max 1 (min 15 speed.toNat)
  let amplitude := vibratoAmplitudes.getD (min 15 depth.toNat) 0
  let frames := vibratoPhases / Nat.gcd vibratoPhases speed
  { values := (List.range frames).map fun frame =>
      Int8.ofInt (sineValue amplitude (frame * speed % vibratoPhases))
    loopPoint := some 0 }

end Chiptune.Curve
