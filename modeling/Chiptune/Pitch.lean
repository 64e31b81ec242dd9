import Chiptune.Project

/-!
# Pitch registers and slides

A pitch table gives the register value of each note on one kind of channel in one video region.
Notes are equally tempered around A4 = 440 Hz, so the exact register value is irrational; it is
rounded to the nearest integer by comparing twelfth powers, without approximation.

`slideStep` is the change of the register per frame that takes a slide to its target in a given
time.
-/

set_option autoImplicit false

namespace Chiptune

namespace Pitch

/-- Note of A4, 440 Hz. -/
def a4 : Nat := 58

/-- Processor clock of a region in Hz. -/
def clock : Machine → Nat
  | .pal => 1662607
  | _ => 1789773

/-- Whether `a · 2 ^ ((note - a4) / 12) ≤ b`. -/
def scaledLe (a note b : Nat) : Bool :=
  Nat.pow a 12 <<< (note - a4) ≤ Nat.pow b 12 <<< (a4 - note)

/-- Whether `a · 2 ^ ((a4 - note) / 12) ≤ b`. -/
def inverseScaledLe (a note b : Nat) : Bool :=
  Nat.pow a 12 <<< (a4 - note) ≤ Nat.pow b 12 <<< (note - a4)

/-- Whether the exact register value of a note lies at or above `value - 1/2`. The period is
`clock / (divider · frequency) - 1`, the frequency register is `frequency · 2 ^ 20 / clock`. -/
def reaches (profile : PitchProfile) (machine : Machine) (note value : Nat) : Bool :=
  match profile with
  | .apuPeriod => scaledLe ((2 * value + 1) * (16 * 440)) note (2 * clock machine)
  | .sawPeriod => scaledLe ((2 * value + 1) * (14 * 440)) note (2 * clock machine)
  | .frequency => inverseScaledLe ((2 * value - 1) * clock machine) note (2 * 440 * 0x100000)
  | .none => false

/-- Largest value of a pitch register. -/
def limit : PitchProfile → Nat
  | .apuPeriod => 2047
  | .sawPeriod | .frequency => 4095
  | .none => 0

/-- Register value of a note: the nearest integer to the exact value, at most the limit. It is found
bit by bit from the highest one. -/
def register (profile : PitchProfile) (machine : Machine) (note : Nat) : Nat :=
  [2048, 1024, 512, 256, 128, 64, 32, 16, 8, 4, 2, 1].foldl
    (fun value bit =>
      if value + bit ≤ limit profile && reaches profile machine note (value + bit) then value + bit
      else value) 0

/-- Register values of a pitch table; index 0 is not a note. -/
def table (profile : PitchProfile) (machine : Machine) : List Nat :=
  (List.range (noteMax.toNat + 1)).map fun note =>
    if note = 0 then 0 else register profile machine note

/-- Whether a higher register value is a lower pitch. -/
def isPeriod : PitchProfile → Bool
  | .apuPeriod | .sawPeriod => true
  | .frequency | .none => false

/-- The playable note nearest to a given one. -/
def clampNote (note : UInt8) : UInt8 := max noteMin (min noteMax note)

/-- Register value of the playable note nearest to a given one. -/
def get (profile : PitchProfile) (machine : Machine) (note : UInt8) : Nat :=
  register profile machine (clampNote note).toNat

end Pitch

/-- Frames that one row lasts at a position, with the speed that is in effect there. -/
def framesPerRow (song : Song) (speed : UInt8) (mode : TempoMode) (machine : Machine)
    (position : Nat) : Float :=
  match mode with
  | .speed =>
    let rate : Float := if machine = .pal then 125 else 150
    Float.ofNat (max 1 speed.toNat) * rate / Float.ofNat (max 1 song.tempo.toNat)
  | .groove =>
    match song.grooveAt position with
    | [] => 6
    | groove =>
      Float.ofNat (groove.foldr (fun frames sum => max 1 frames.toNat + sum) 0) /
        Float.ofNat groove.length

/-- Least integer at or above a float that is finite and not negative; zero for other floats. -/
def ceilNat (x : Float) : Nat :=
  let bits := x.toBits.toNat
  let exponent := (bits >>> 52) % 0x800
  let fraction := bits % 0x10000000000000
  if bits.testBit 63 ∨ exponent = 0x7FF then 0
  else
    let mantissa := if exponent = 0 then fraction else fraction + 0x10000000000000
    let scale := max 1 exponent
    if 1075 ≤ scale then mantissa <<< (scale - 1075)
    else (mantissa + (1 <<< (1075 - scale) - 1)) >>> (1075 - scale)

/-- Step per frame that takes the register from one note to another in a number of frames. The
driver moves the register difference towards zero by the step, so it is never zero for different
registers; it is kept in the range of a signed byte. -/
def regionStep (profile : PitchProfile) (machine : Machine) (source target : UInt8)
    (frames : Float) : Int :=
  let delta : Int := Pitch.get profile machine source - Pitch.get profile machine target
  if delta = 0 then 0
  else
    let duration := if 1 < frames then frames else 1
    let size := max 1 (ceilNat (Float.ofNat delta.natAbs / duration))
    max (-128) (min 127 (size * delta.sign))

/-- Step of a slide. For data that plays in both regions it is the step that moves further in the
direction of the slide, so that both reach the target in time. -/
def slideStep (profile : PitchProfile) (machine : Machine) (source target : UInt8)
    (ntscFrames palFrames : Float) : Int8 :=
  let ntsc := regionStep profile .ntsc source target ntscFrames
  let pal := regionStep profile .pal source target palFrames
  Int8.ofInt <|
    match machine with
    | .ntsc => ntsc
    | .pal => pal
    | .dual => if 0 ≤ ntsc ∧ 0 ≤ pal then max ntsc pal else min ntsc pal

end Chiptune
