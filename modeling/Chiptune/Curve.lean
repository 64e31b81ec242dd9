import Chiptune.Envelope
import Chiptune.Error
import Chiptune.Kernel
import Chiptune.Warning

/-!
# Encoded curves

The driver reads an envelope as a string of bytes:

* byte 0 is the offset of the release entry point, 0 for none;
* a byte from `0x80` on is the value of one frame, shifted by the bias;
* a byte from `0x01` to `0x7F` is a run count, followed by the value byte of its frames;
* `0x00` is a jump, followed by its target; a jump onto itself halts the curve.

`Curve.encode` writes this form. Runs break at the loop point, at the release point and before
the last frame, so that each of these is the start of a record.
-/

set_option autoImplicit false

namespace Chiptune.Curve

/-- Distance between a value and its byte. -/
def valueBias : UInt8 := 192

/-- Smallest value that a curve can hold. -/
def valueMin : Int8 := -64

/-- Largest value that a curve can hold. -/
def valueMax : Int8 := 63

/-- Longest run of one record. -/
def maxRun : Nat := 127

/-- First byte of a jump record. -/
def jump : UInt8 := 0

/-- Most frames that offsets of one byte can address. -/
def maxLength : Nat := 240

/-- The curve that does nothing: no release, halt at once. -/
def default : List UInt8 := [0x00, jump, 0x01]

/-- What the driver does with a curve. -/
structure Profile where
  allowReleases : Bool
  isPitch : Bool
  deriving DecidableEq

/-- Byte of a value. -/
def bias (value : Int8) : UInt8 := value.toUInt8 + valueBias

/-- Value of a byte. -/
def unbias (byte : UInt8) : Int8 := (byte - valueBias).toInt8

/-- Whether a curve can hold a value. -/
def inRange (value : Int8) : Bool := valueMin ≤ value && value ≤ valueMax

/-- The value nearest to a given one that a curve can hold. -/
def clampValue (value : Int8) : Int8 :=
  if value < valueMin then valueMin else if valueMax < value then valueMax else value

/-! ## Runs -/

/-- Runs of a sequence that continues `count` frames of `value`. -/
def runsFrom (value : UInt8) (count : Nat) : List UInt8 → List (UInt8 × Nat)
  | [] => [(value, count)]
  | next :: rest =>
    if next = value ∧ count < maxRun then runsFrom value (count + 1) rest
    else (value, count) :: runsFrom next 1 rest

/-- The sequence as runs of equal values, each at most `maxRun` long. -/
def runs : List UInt8 → List (UInt8 × Nat)
  | [] => []
  | value :: rest => runsFrom value 1 rest

/-- Record of a run. -/
def record (run : UInt8 × Nat) : List UInt8 :=
  if run.2 = 1 then [run.1] else [UInt8.ofNat run.2, run.1]

/-- Records of a stretch of frames. -/
def records (frames : List UInt8) : List UInt8 := (runs frames).flatMap record

/-- Offsets at which records start in a string of records that begins at `offset`. -/
def recordStarts (offset : Nat) : List UInt8 → List Nat
  | [] => []
  | [_] => [offset]
  | first :: second :: rest =>
    offset ::
      if 0x80 ≤ first then recordStarts (offset + 1) (second :: rest)
      else recordStarts (offset + 2) rest

/-- Frames from index `a` up to index `b`. -/
def stretch (frames : List UInt8) (a b : Nat) : List UInt8 := (frames.take b).drop a

/-- Close a curve with a jump, and check that a loop target is the start of a record. -/
def close (body : List UInt8) (target : Nat) (loopTarget : Option Nat) :
    Except Fault (List UInt8) :=
  let curve := body ++ [jump, UInt8.ofNat target]
  if loopTarget.all (recordStarts 1 (curve.drop 1)).contains then .ok curve
  else .error .loopInsideRecord

/-- Curve of a sequence of frames with a loop and a release point. A release needs a loop before
it: the sustain part ends in a jump back to the loop, and the release part holds its last value.
Without a release the last frame is followed by the loop, or else held. -/
def encodeRuns (frames : List UInt8) (loop release : Option Nat) : Except Fault (List UInt8) :=
  let count := frames.length
  let last := count - 1
  match loop, release with
  | none, none =>
    let body := (0 : UInt8) ::
      (records (stretch frames 0 last) ++ records (stretch frames last count))
    close body (body.length - 1) none
  | some l, none =>
    let opening := (0 : UInt8) :: records (stretch frames 0 l)
    let body := opening ++ records (stretch frames l last) ++
      records (stretch frames (max l last) count)
    close body opening.length (some opening.length)
  | none, some _ => .error .releaseWithoutLoop
  | some l, some r =>
    if r ≤ l then .error .releaseWithoutLoop
    else
      let opening := records (stretch frames 0 l)
      let target := opening.length + 1
      let sustain := opening ++ records (stretch frames l r) ++ [jump, UInt8.ofNat target]
      let body := UInt8.ofNat (sustain.length + 1) :: sustain ++ records (stretch frames r last) ++
        records (stretch frames (max r last) count)
      close body (body.length - 1) (some target)

/-! ## Envelopes -/

/-- Text of an optional index in messages. -/
def pointText : Option Nat → String
  | none => "None"
  | some index => s!"Some({index})"

/-- Curve of an envelope, `none` for the default curve. -/
def encode (e : Envelope) (profile : Profile) (log : Log) :
    Except Fault (Option (List UInt8) × Log) :=
  if !e.isWellFormed then
    let loop := pointText e.loopPoint
    let release := pointText e.release
    let log := log.warnIf (!e.isEmpty) .malformedCurve <|
      s!"Envelope of length {e.length} has loop {loop} / release {release} out of range, " ++
        "using default"
    .ok (none, log)
  else
    let log := log.warnIf (maxLength < e.length) .malformedCurve
      s!"Envelope truncated from {e.length} to {maxLength} frames"
    let values := e.values.take maxLength
    let log :=
      if values.all inRange then log
      else if profile.isPitch then
        log.warnOnce .unsupportedCurve "Pitch envelope needs hi-pitch values, clamping to -64..63"
      else log.warn .clamped "Envelope values clamped to -64..63"
    let frames := values.map fun value => bias (clampValue value)
    let log := log.warnOnceIf (!profile.allowReleases && e.release.isSome) .unsupportedCurve
      "Envelope releases are not supported by the target kernel"
    let release :=
      if profile.allowReleases then e.effectiveRelease.filter (· < frames.length) else none
    let loop :=
      (if release.isSome then e.effectiveLoop else e.loopPoint).filter (· < frames.length)
    match frames, e.relative, release with
    | [value], false, none =>
      .ok (some (if profile.isPitch then [0x00, value, jump, 2]
        else [0x00, UInt8.ofNat maxRun, value, jump, 1]), log)
    | _, _, _ => do
      let frames := if e.relative && loop.isNone then frames ++ [bias 0] else frames
      let curve ← encodeRuns frames loop release
      .ok (some curve, log)

/-- Curve of an instrument's envelope. A constant duty is left to the instrument record. -/
def encodeInstrument (e : Envelope) (kind : EnvelopeKind) (kernel : Kernel) (log : Log) :
    Except Fault (Option (List UInt8) × Log) :=
  if kind = .duty ∧ e.length = 1 ∧ e.release.isNone ∧ !e.relative then .ok (none, log)
  else encode e ⟨kernel.allowsReleases, kind == .pitch⟩ log

end Chiptune.Curve
