import Chiptune.Expansion

/-!
# Channels and what their hardware can do

The driver knows 28 channels: five of the console's own chip and those of the expansions. Each
query states one capability of the hardware (`supportsVolume`, `supportsSlide`, …), the register
arithmetic of its pitch (`PitchProfile`) or the instrument table that its instructions index.
-/

set_option autoImplicit false

namespace Chiptune

/-- How a channel turns a note into a pitch register value. -/
inductive PitchProfile
  /-- Period of 11 bits, clock / 16. -/
  | apuPeriod
  /-- Period of 12 bits, clock / 14. -/
  | sawPeriod
  /-- Register proportional to the frequency. -/
  | frequency
  /-- No pitch table: noise and sample channels. -/
  | none
  deriving DecidableEq

/-- Instrument tables of the compiled data. -/
inductive InstrumentTable
  | primary
  | extended
  deriving DecidableEq

/-- Channel of the sound hardware. -/
inductive Channel
  | square1
  | square2
  | triangle
  | noise
  | dpcm
  | vrc6Square1
  | vrc6Square2
  | vrc6Saw
  | vrc7Fm1
  | vrc7Fm2
  | vrc7Fm3
  | vrc7Fm4
  | vrc7Fm5
  | vrc7Fm6
  | fdsWave
  | mmc5Square1
  | mmc5Square2
  | n163Wave1
  | n163Wave2
  | n163Wave3
  | n163Wave4
  | n163Wave5
  | n163Wave6
  | n163Wave7
  | n163Wave8
  | s5bSquare1
  | s5bSquare2
  | s5bSquare3
  deriving DecidableEq

namespace Channel

/-- Canonical channel order of the driver: the console's own chip first, then expansions. -/
def all : List Channel :=
  [square1, square2, triangle, noise, dpcm, vrc6Square1, vrc6Square2, vrc6Saw,
    vrc7Fm1, vrc7Fm2, vrc7Fm3, vrc7Fm4, vrc7Fm5, vrc7Fm6, fdsWave, mmc5Square1, mmc5Square2,
    n163Wave1, n163Wave2, n163Wave3, n163Wave4, n163Wave5, n163Wave6, n163Wave7, n163Wave8,
    s5bSquare1, s5bSquare2, s5bSquare3]

theorem mem_all (c : Channel) : c ∈ all := by cases c <;> decide

/-- Name in project files. -/
def key : Channel → String
  | square1 => "square1"
  | square2 => "square2"
  | triangle => "triangle"
  | noise => "noise"
  | dpcm => "dpcm"
  | vrc6Square1 => "vrc6_square1"
  | vrc6Square2 => "vrc6_square2"
  | vrc6Saw => "vrc6_saw"
  | vrc7Fm1 => "vrc7_fm1"
  | vrc7Fm2 => "vrc7_fm2"
  | vrc7Fm3 => "vrc7_fm3"
  | vrc7Fm4 => "vrc7_fm4"
  | vrc7Fm5 => "vrc7_fm5"
  | vrc7Fm6 => "vrc7_fm6"
  | fdsWave => "fds_wave"
  | mmc5Square1 => "mmc5_square1"
  | mmc5Square2 => "mmc5_square2"
  | n163Wave1 => "n163_wave1"
  | n163Wave2 => "n163_wave2"
  | n163Wave3 => "n163_wave3"
  | n163Wave4 => "n163_wave4"
  | n163Wave5 => "n163_wave5"
  | n163Wave6 => "n163_wave6"
  | n163Wave7 => "n163_wave7"
  | n163Wave8 => "n163_wave8"
  | s5bSquare1 => "s5b_square1"
  | s5bSquare2 => "s5b_square2"
  | s5bSquare3 => "s5b_square3"

/-- Short name, used in labels and messages. -/
def shortName : Channel → String
  | square1 => "sq1"
  | square2 => "sq2"
  | triangle => "tri"
  | noise => "noise"
  | dpcm => "dpcm"
  | vrc6Square1 => "vrc6sq1"
  | vrc6Square2 => "vrc6sq2"
  | vrc6Saw => "vrc6saw"
  | vrc7Fm1 => "vrc7fm1"
  | vrc7Fm2 => "vrc7fm2"
  | vrc7Fm3 => "vrc7fm3"
  | vrc7Fm4 => "vrc7fm4"
  | vrc7Fm5 => "vrc7fm5"
  | vrc7Fm6 => "vrc7fm6"
  | fdsWave => "fds"
  | mmc5Square1 => "mmc5sq1"
  | mmc5Square2 => "mmc5sq2"
  | n163Wave1 => "n163w1"
  | n163Wave2 => "n163w2"
  | n163Wave3 => "n163w3"
  | n163Wave4 => "n163w4"
  | n163Wave5 => "n163w5"
  | n163Wave6 => "n163w6"
  | n163Wave7 => "n163w7"
  | n163Wave8 => "n163w8"
  | s5bSquare1 => "s5bsq1"
  | s5bSquare2 => "s5bsq2"
  | s5bSquare3 => "s5bsq3"

/-- Expansion chip that owns the channel, `none` for the console's own chip. -/
def expansion : Channel → Option Expansion
  | square1 | square2 | triangle | noise | dpcm => none
  | vrc6Square1 | vrc6Square2 | vrc6Saw => some .vrc6
  | vrc7Fm1 | vrc7Fm2 | vrc7Fm3 | vrc7Fm4 | vrc7Fm5 | vrc7Fm6 => some .vrc7
  | fdsWave => some .fds
  | mmc5Square1 | mmc5Square2 => some .mmc5
  | n163Wave1 | n163Wave2 | n163Wave3 | n163Wave4 | n163Wave5 | n163Wave6 | n163Wave7
  | n163Wave8 => some .n163
  | s5bSquare1 | s5bSquare2 | s5bSquare3 => some .s5b

/-- Position among the N163 channels, counted from zero. -/
def n163Index : Channel → Option Nat
  | n163Wave1 => some 0
  | n163Wave2 => some 1
  | n163Wave3 => some 2
  | n163Wave4 => some 3
  | n163Wave5 => some 4
  | n163Wave6 => some 5
  | n163Wave7 => some 6
  | n163Wave8 => some 7
  | _ => none

/-- Whether the channel is one of the six FM voices that share a custom patch. -/
def isVrc7 (c : Channel) : Bool := c.expansion == some .vrc7

def supportsVolume : Channel → Bool
  | triangle | dpcm => false
  | _ => true

def supportsDuty : Channel → Bool
  | square1 | square2 | noise | vrc6Square1 | vrc6Square2 | mmc5Square1 | mmc5Square2 => true
  | _ => false

def supportsArpeggio : Channel → Bool
  | dpcm => false
  | _ => true

def supportsVibrato : Channel → Bool
  | dpcm | noise => false
  | _ => true

def supportsFinePitch : Channel → Bool
  | dpcm | noise => false
  | _ => true

def supportsFdsModulation : Channel → Bool
  | fdsWave => true
  | _ => false

def supportsDeltaCounter : Channel → Bool
  | dpcm => true
  | _ => false

/-- Register arithmetic of the channel's pitch. -/
def pitchProfile : Channel → PitchProfile
  | noise | dpcm => .none
  | vrc6Saw => .sawPeriod
  | fdsWave | vrc7Fm1 | vrc7Fm2 | vrc7Fm3 | vrc7Fm4 | vrc7Fm5 | vrc7Fm6 | n163Wave1 | n163Wave2
  | n163Wave3 | n163Wave4 | n163Wave5 | n163Wave6 | n163Wave7 | n163Wave8 => .frequency
  | _ => .apuPeriod

def supportsSlide (c : Channel) : Bool := c.pitchProfile != .none

/-- Instrument table that the channel's instrument instructions index. Notes of the sample channel
select a sample mapping instead. -/
def instrumentTable (c : Channel) : Option InstrumentTable :=
  if c = dpcm then none
  else match c.expansion with
    | none | some .mmc5 => some .primary
    | some _ => some .extended

/-- Largest duty setting of the channel. -/
def dutyLimit : Channel → UInt8
  | noise => 1
  | vrc6Square1 | vrc6Square2 => 7
  | _ => 3

end Channel

end Chiptune
