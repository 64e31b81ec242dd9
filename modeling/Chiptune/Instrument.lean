import Chiptune.Channel
import Chiptune.Envelope

/-!
# Instruments, arpeggios and samples of a score

The kind of an instrument is the chip that it is written for, with the settings that only this
chip has. An instrument plays on the channels of its own chip (`InstrumentKind.fits`).
-/

set_option autoImplicit false

namespace Chiptune

/-- Chip of an instrument with its settings. -/
inductive InstrumentKind
  | apu
  | vrc6
  /-- Built-in patch number, where 0 selects the custom patch, and the registers of the latter. -/
  | vrc7 (patch : UInt8) (regs : Vector UInt8 8)
  | fds (modSpeed : UInt16) (modDepth : UInt8) (modDelay : UInt8)
  | mmc5
  /-- Position of the wave in chip memory and its size, both in samples. -/
  | n163 (wavePos : UInt8) (waveSize : UInt8)
  | s5b
  deriving DecidableEq

namespace InstrumentKind

/-- Name shown in messages. -/
def name : InstrumentKind → String
  | apu => "2A03"
  | vrc6 => "VRC6"
  | vrc7 .. => "VRC7"
  | fds .. => "FDS"
  | mmc5 => "MMC5"
  | n163 .. => "N163"
  | s5b => "S5B"

/-- Chip of the instrument, `none` for the console's own. -/
def expansion : InstrumentKind → Option Expansion
  | apu => none
  | vrc6 => some .vrc6
  | vrc7 .. => some .vrc7
  | fds .. => some .fds
  | mmc5 => some .mmc5
  | n163 .. => some .n163
  | s5b => some .s5b

/-- Whether notes of a channel can use an instrument of this kind. -/
def fits (kind : InstrumentKind) (channel : Channel) : Bool :=
  channel != .dpcm && kind.expansion == channel.expansion

/-- Whether the instrument uses the custom patch that all FM voices share. -/
def isVrc7Custom : InstrumentKind → Bool
  | vrc7 patch _ => patch == 0
  | _ => false

/-- Table that records of this kind live in. -/
def table (kind : InstrumentKind) : InstrumentTable :=
  match kind.expansion with
  | none | some .mmc5 => .primary
  | some _ => .extended

end InstrumentKind

/-- Instrument of a score. -/
structure Instrument where
  name : String
  kind : InstrumentKind
  envelopes : EnvelopeSet := {}
  deriving DecidableEq

/-- The envelope of a kind that the instrument carries. -/
def Instrument.envelope (i : Instrument) (kind : EnvelopeKind) : Option Envelope :=
  i.envelopes.get? kind

/-- Named arpeggio curve that notes refer to. -/
structure Arpeggio where
  name : String
  envelope : Envelope
  deriving DecidableEq

/-- Delta modulation sample. -/
structure Sample where
  name : String
  data : List UInt8
  deriving DecidableEq

/-- Which sample a note of the sample channel plays. -/
structure SampleMapping where
  note : UInt8
  sample : Nat
  /-- Index of the playback rate. -/
  pitch : UInt8 := 15
  looping : Bool := false
  deriving DecidableEq

end Chiptune
