import Chiptune.Error
import Chiptune.Project
import Chiptune.Warning

/-!
# Sample data in memory

The sound hardware plays samples from 64-byte boundaries above `$C000` and counts their length in
16-byte steps, so samples are padded and spaced out (`paddedSample`, `sampleOffsets`).
`checkSamples` refuses what its registers cannot reach.
-/

set_option autoImplicit false

namespace Chiptune

/-- Boundary on which samples start. -/
def sampleAlignment : Nat := 64

/-- Longest sample that the length register can describe. -/
def maxSampleLength : Nat := 0xFF * 16 + 1

/-- Address that the sample address register counts from. -/
def sampleRegisterBase : UInt16 := 0xC000

/-- Byte that pads samples. -/
def samplePadding : UInt8 := 0x55

/-- Least length that the hardware can play for a number of bytes: one more than a multiple of 16.
-/
def paddedLength (length : Nat) : Nat := (length - 1 + 15) / 16 * 16 + 1

/-- Sample data, cut and padded to a length that the hardware can play. -/
def paddedSample (data : List UInt8) : List UInt8 :=
  let bytes := data.take maxSampleLength
  bytes ++ List.replicate (paddedLength bytes.length - bytes.length) samplePadding

/-- Least multiple of the sample alignment at or above an offset. -/
def alignSample (offset : Nat) : Nat :=
  (offset + (sampleAlignment - 1)) / sampleAlignment * sampleAlignment

/-- Offsets of samples that are laid out from an offset on. -/
def sampleOffsetsFrom (offset : Nat) : List Sample → List Nat
  | [] => []
  | sample :: rest =>
    let start := alignSample offset
    start :: sampleOffsetsFrom (start + (paddedSample sample.data).length) rest

/-- Offset of each sample of a project in the sample segment. -/
def sampleOffsets (p : Project) : List Nat := sampleOffsetsFrom 0 p.samples

/-- Check one sample after the other, with a warning for each that is cut. -/
def checkSamplesFrom (registerOffset : Nat) (log : Log) :
    List (Sample × Nat) → Except Error Unit × Log
  | [] => (.ok (), log)
  | (sample, offset) :: rest =>
    if 0xFF < (registerOffset + offset) / sampleAlignment then
      (.error (.addressOverflow "DPCM"), log)
    else
      let name := sample.name
      let length := sample.data.length
      checkSamplesFrom registerOffset (log.warnIf (maxSampleLength < length) .tableOverflow
        s!"Sample '{name}' is {length} bytes, cut to {maxSampleLength}") rest

/-- Refuse a sample segment that the address register cannot reach. -/
def checkSamples (p : Project) (base : UInt16) (log : Log) : Except Error Unit × Log :=
  if p.samples.isEmpty then (.ok (), log)
  else if base < sampleRegisterBase ∨ base.toNat % sampleAlignment ≠ 0 then
    (.error (.invalidSampleBase base), log)
  else
    checkSamplesFrom (base - sampleRegisterBase).toNat log (p.samples.zip (sampleOffsets p))

end Chiptune
