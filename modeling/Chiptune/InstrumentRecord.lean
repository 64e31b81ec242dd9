import Chiptune.Instrument
import Chiptune.Tables
import Chiptune.Waveform

/-!
# Data behind an instrument record

The record of an instrument points at its curves and waves. A constant duty has no curve of its
own: it stands in the record as the initial register value.
-/

set_option autoImplicit false

namespace Chiptune

/-- Curves that an instrument record points at. -/
structure InstrumentCurves where
  volume : Nat
  arpeggio : Nat
  pitch : Nat
  duty : Nat
  /-- Initial duty register value. -/
  dutyInit : UInt8
  deriving DecidableEq

/-- Initial duty of an instrument: the first value of its duty envelope, from 0 to 7. -/
def Instrument.initialDuty (i : Instrument) : UInt8 :=
  match (i.envelope .duty).bind (·.values.head?) with
  | some value => UInt8.ofNat (max 0 (min 7 value.toInt)).toNat
  | none => 0

/-- Add the curves of an instrument. -/
def InstrumentCurves.add (i : Instrument) (kernel : Kernel) (t : Tables) :
    Except Fault (InstrumentCurves × Tables) := do
  let (volume, t) ← t.addEnvelope (i.envelope .volume) .volume kernel
  let (arpeggio, t) ← t.addEnvelope (i.envelope .arpeggio) .arpeggio kernel
  let (pitch, t) ← t.addEnvelope (i.envelope .pitch) .pitch kernel
  let (duty, t) ← t.addEnvelope (i.envelope .duty) .duty kernel
  .ok ({ volume, arpeggio, pitch, duty, dutyInit := i.initialDuty }, t)

/-- Data behind an instrument record. -/
structure InstrumentRecord where
  curves : InstrumentCurves
  waves : InstrumentWaves
  deriving DecidableEq

end Chiptune
