import Chiptune.Instrument
import Chiptune.UniqueTable
import Chiptune.Warning

/-!
# Waveforms of expansion instruments

A waveform envelope is cyclic: a short one repeats, an empty one is flat. It is packed in the form
of its chip, and equal waves share a table entry.
-/

set_option autoImplicit false

namespace Chiptune

namespace Waveform

/-- Samples of an FDS wave. -/
def fdsWaveLength : Nat := 64

/-- Steps of an FDS modulation table. -/
def fdsModLength : Nat := 32

/-- Codes of the modulation steps that the chip knows. -/
def fdsModCodes : List (Int × UInt8) :=
  [(0, 0), (1, 1), (2, 2), (4, 3), (-4, 5), (-2, 6), (-1, 7)]

/-- A number of samples of a cyclic waveform. -/
def samples (e : Envelope) (count : Nat) : List Int :=
  let values := e.values.toArray
  (List.range count).map fun i => (values.getD (i % values.size) 0).toInt

/-- Whether all values of an envelope lie between 0 and a limit. -/
def within (e : Envelope) (limit : Int) : Bool :=
  e.values.all fun v => 0 ≤ v.toInt && v.toInt ≤ limit

/-- The value from 0 to a limit that is nearest to a given one. -/
def clampSample (limit : Int) (value : Int) : UInt8 := UInt8.ofNat (max 0 (min limit value)).toNat

/-- FDS wave of 64 six-bit samples. -/
def fdsWave (e : Envelope) (log : Log) : List UInt8 × Log :=
  ((samples e fdsWaveLength).map (clampSample 63),
    log.warnOnceIf (!within e 63) .clamped "FDS wave samples clamped to 0..63")

/-- The step nearest to a value among some steps and a first one, which wins ties. -/
def nearest (value : Int) (best : Int × UInt8) : List (Int × UInt8) → Int × UInt8
  | [] => best
  | step :: rest =>
    if (step.1 - value).natAbs < (best.1 - value).natAbs then nearest value step rest
    else nearest value best rest

/-- The step of the modulation table that is nearest to a value. -/
def modStep (value : Int) : Int × UInt8 := nearest value (0, 0) fdsModCodes

/-- FDS modulation table of 32 codes. -/
def fdsMod (e : Envelope) (log : Log) : List UInt8 × Log :=
  let values := samples e fdsModLength
  (values.map fun value => (modStep value).2,
    values.foldl (fun log value =>
      let offset := (modStep value).1
      log.warnOnceIf (offset != value) .clamped
        s!"FDS modulation offset {value} replaced by {offset}") log)

/-- Bytes of four-bit samples, two in each byte, low half first. -/
def nibbles : List UInt8 → List UInt8
  | low :: high :: rest => (high <<< 4 ||| low) :: nibbles rest
  | _ => []

/-- N163 wave of four-bit samples; the number of samples is made even and at least 2. -/
def n163Wave (e : Envelope) (size : Nat) (log : Log) : List UInt8 × Log :=
  let count := max 2 size / 2 * 2
  (nibbles ((samples e count).map (clampSample 15)),
    log.warnOnceIf (!within e 15) .clamped "N163 wave samples clamped to 0..15")

end Waveform

/-- Packed waves of all instruments. -/
structure WaveTables where
  fdsWaves : UniqueTable := {}
  fdsMods : UniqueTable := {}
  n163Waves : UniqueTable := {}

/-- Table entries that an instrument's waves are in. -/
inductive InstrumentWaves
  | none
  | fds (wave modulation : Nat)
  | n163 (wave : Nat)
  deriving DecidableEq

/-- Add the waves of an instrument. -/
def WaveTables.add (t : WaveTables) (i : Instrument) (log : Log) :
    InstrumentWaves × WaveTables × Log :=
  let flat : Envelope := { values := [] }
  match i.kind with
  | .fds .. =>
    let (wave, log) := Waveform.fdsWave ((i.envelope .fdsWaveform).getD flat) log
    let (waveIndex, fdsWaves) := t.fdsWaves.intern wave 0
    let (modulation, log) := Waveform.fdsMod ((i.envelope .fdsModulation).getD flat) log
    let (modIndex, fdsMods) := t.fdsMods.intern modulation 0
    (.fds waveIndex modIndex, { t with fdsWaves, fdsMods }, log)
  | .n163 _ size =>
    let (wave, log) := Waveform.n163Wave ((i.envelope .n163Waveform).getD flat) size.toNat log
    let (index, n163Waves) := t.n163Waves.intern wave 0
    (.n163 index, { t with n163Waves }, log)
  | _ => (.none, t, log)

end Chiptune
