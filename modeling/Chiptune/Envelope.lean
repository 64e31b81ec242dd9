/-!
# Envelopes of a score

An envelope is a sequence of control values, one per frame, with an optional loop start and an
optional release point. The seven kinds are the curves that shape a note (volume, arpeggio,
pitch, duty) and the waveforms of expansion chips; an instrument has at most one of each
(`EnvelopeSet`).
-/

set_option autoImplicit false

namespace Chiptune

/-- What an envelope of an instrument controls. -/
inductive EnvelopeKind
  | volume
  | arpeggio
  | pitch
  | duty
  | fdsWaveform
  | fdsModulation
  | n163Waveform
  deriving DecidableEq

namespace EnvelopeKind

/-- Every kind, in the order of project files. -/
def all : List EnvelopeKind :=
  [volume, arpeggio, pitch, duty, fdsWaveform, fdsModulation, n163Waveform]

/-- Whether the envelope goes into the table of encoded curves; the others are packed into
waveform tables. -/
def isCurve : EnvelopeKind → Bool
  | volume | arpeggio | pitch | duty => true
  | _ => false

/-- Name shown to users. -/
def name : EnvelopeKind → String
  | volume => "volume"
  | arpeggio => "arpeggio"
  | pitch => "pitch"
  | duty => "duty"
  | fdsWaveform => "fds waveform"
  | fdsModulation => "fds modulation"
  | n163Waveform => "n163 waveform"

/-- Name in project files. -/
def key : EnvelopeKind → String
  | volume => "volume"
  | arpeggio => "arpeggio"
  | pitch => "pitch"
  | duty => "duty_cycle"
  | fdsWaveform => "fds_waveform"
  | fdsModulation => "fds_modulation"
  | n163Waveform => "n163_waveform"

end EnvelopeKind

/-- Sequence of control values, one per frame. -/
structure Envelope where
  values : List Int8
  /-- Index of the frame that playback returns to after the last one. -/
  loopPoint : Option Nat := none
  /-- Index of the frame that playback jumps to when the note is released. -/
  release : Option Nat := none
  /-- Whether the values are changes rather than levels. -/
  relative : Bool := false
  deriving DecidableEq

namespace Envelope

/-- Number of frames. -/
def length (e : Envelope) : Nat := e.values.length

/-- Whether there are no frames. -/
def isEmpty (e : Envelope) : Bool := e.values.isEmpty

/-- Release point; a release on the first frame has nothing to sustain and counts as none. -/
def effectiveRelease (e : Envelope) : Option Nat := e.release.filter (0 < ·)

/-- Loop start that the driver uses. A release always implies a loop: without one the sustain
holds on the frame before the release, and a loop at or past the release is pulled back to it. -/
def effectiveLoop (e : Envelope) : Option Nat :=
  match e.loopPoint, e.effectiveRelease with
  | some l, some r => some (if r ≤ l then r - 1 else l)
  | none, some r => some (r - 1)
  | l, none => l

/-- Whether there is a frame and both points lie inside the sequence. -/
def isWellFormed (e : Envelope) : Bool :=
  0 < e.length && e.loopPoint.all (· < e.length) && e.release.all (· < e.length)

end Envelope

/-- Envelopes of one instrument, at most one of each kind. -/
structure EnvelopeSet where
  volume : Option Envelope := none
  arpeggio : Option Envelope := none
  pitch : Option Envelope := none
  duty : Option Envelope := none
  fdsWaveform : Option Envelope := none
  fdsModulation : Option Envelope := none
  n163Waveform : Option Envelope := none
  deriving DecidableEq

namespace EnvelopeSet

/-- The envelope of a kind. -/
def get? (s : EnvelopeSet) : EnvelopeKind → Option Envelope
  | .volume => s.volume
  | .arpeggio => s.arpeggio
  | .pitch => s.pitch
  | .duty => s.duty
  | .fdsWaveform => s.fdsWaveform
  | .fdsModulation => s.fdsModulation
  | .n163Waveform => s.n163Waveform

/-- The set with the envelope of a kind put in place of any earlier one. -/
def insert (s : EnvelopeSet) (kind : EnvelopeKind) (e : Envelope) : EnvelopeSet :=
  match kind with
  | .volume => { s with volume := some e }
  | .arpeggio => { s with arpeggio := some e }
  | .pitch => { s with pitch := some e }
  | .duty => { s with duty := some e }
  | .fdsWaveform => { s with fdsWaveform := some e }
  | .fdsModulation => { s with fdsModulation := some e }
  | .n163Waveform => { s with n163Waveform := some e }

/-- The envelopes present, in the order of project files. -/
def toList (s : EnvelopeSet) : List (EnvelopeKind × Envelope) :=
  EnvelopeKind.all.filterMap fun kind => (s.get? kind).map (kind, ·)

/-- Set of the envelopes in a list; of two of one kind the later stays. -/
def ofList (entries : List (EnvelopeKind × Envelope)) : EnvelopeSet :=
  entries.foldl (fun s entry => s.insert entry.1 entry.2) {}

theorem get?_insert (s : EnvelopeSet) (a b : EnvelopeKind) (e : Envelope) :
    (s.insert a e).get? b = if a = b then some e else s.get? b := by
  cases a <;> cases b <;> simp [insert, get?]

end EnvelopeSet

end Chiptune
