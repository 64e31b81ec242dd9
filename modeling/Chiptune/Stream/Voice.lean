import Chiptune.Instruction
import Chiptune.PatchTimeline
import Chiptune.Slots
import Chiptune.Tables

/-!
# State of a channel while its stream is written

A stream holds only changes. `Told` is what the driver was last told and `Wanted` is what the song
asks for at the current row; where they differ an instruction is due. What the driver was told is
forgotten field by field at the loop mark, where the driver also arrives from the end of the song.
-/

set_option autoImplicit false

namespace Chiptune.Stream

/-- One channel of one song, with all that its stream depends on. -/
structure Job where
  project : Project
  kernel : Kernel
  machine : Machine
  /-- Stem of all labels. -/
  stem : String
  slots : Slots
  /-- Curve of each arpeggio of the project. -/
  arpeggios : List Nat
  songIndex : Nat
  song : Song
  channel : Channel
  /-- Whether the channel carries the song's tempo instructions. -/
  carriesTempo : Bool
  patches : Option PatchTimeline

/-- What the driver was last told; `none` is unknown. -/
structure Told where
  instrument : Option Nat := none
  arpeggio : Option (Option Nat) := none
  volume : Option UInt8 := none
  finePitch : Option Int8 := none
  vibrato : Option (Option Vibrato) := none
  duty : Option UInt8 := none
  fdsModSpeed : Option UInt16 := none
  fdsModDepth : Option UInt8 := none
  speed : Option UInt8 := none
  groove : Option Nat := none
  deriving DecidableEq

/-- What the song asks for at the current row. -/
structure Wanted where
  instrument : Option Nat := none
  volume : UInt8
  finePitch : Int8 := 0
  vibrato : Option Vibrato := none
  duty : Option UInt8 := none
  fdsModSpeed : Option UInt16 := none
  fdsModDepth : Option UInt8 := none
  speed : UInt8
  groove : Nat
  deriving DecidableEq

/-- Volume of a channel after a reset. -/
def initialVolume : UInt8 := 15

/-- State of a channel while its stream is written. -/
structure Voice where
  told : Told
  wanted : Wanted
  tables : Tables
  /-- Row on which the channel last loaded a custom patch since the loop mark. -/
  lastPatchRow : Option Nat := none
  /-- Instructions of the current row. -/
  row : List Instruction := []

/-- State before the first row. -/
def Voice.start (job : Job) (t : Tables) : Voice :=
  let (groove, tables) :=
    match job.project.tempoMode with
    | .groove => t.groove job.song.groove
    | .speed => (0, t)
  { told :=
      { arpeggio := some none
        volume := some initialVolume
        finePitch := some 0
        vibrato := some none
        speed := some job.song.speed
        groove := some groove }
    wanted := { volume := initialVolume, speed := job.song.speed, groove }
    tables }

/-- A value that is forgotten if it changes. -/
def keepUnless {α : Type} (changes : Bool) (value : Option α) : Option α :=
  if changes then none else value

/-- What is known about the driver at the loop mark: everything that some cell of the channel or
some row of the song changes is unknown. -/
def Told.forget (told : Told) (song : Song) (rows : List Row) (speeds : List (Option UInt8)) :
    Told :=
  let notes := rows.filterMap (·.note)
  let changes (p : Note → Bool) : Bool := notes.any p
  let fds := changes fun n =>
    n.fdsModSpeed.isSome || n.fdsModDepth.isSome || n.instrument.isSome
  { instrument := none
    arpeggio := keepUnless (changes (·.arpeggio.isSome)) told.arpeggio
    volume := keepUnless (changes (·.volume.isSome)) told.volume
    finePitch := keepUnless (changes (·.finePitch.isSome)) told.finePitch
    vibrato := keepUnless (changes (·.vibrato.isSome)) told.vibrato
    duty := keepUnless (changes fun n => n.duty.isSome || n.instrument.isSome) told.duty
    fdsModSpeed := keepUnless fds told.fdsModSpeed
    fdsModDepth := keepUnless fds told.fdsModDepth
    speed := keepUnless (speeds.any Option.isSome) told.speed
    groove := keepUnless (!song.overrides.isEmpty) told.groove }

namespace Voice

/-- Apply a change to the log. -/
def logging (v : Voice) (change : Log → Log) : Voice := { v with tables := v.tables.logging change }

/-- Warn about an attribute that the channel does not have. -/
def unsupported (v : Voice) (job : Job) (what : String) : Voice :=
  let name := job.channel.shortName
  v.logging (·.warnOnce .unsupportedFeature s!"{what} is not supported on channel {name}, ignored")

/-- The value within bounds that is nearest to a given one, with a warning if it is another. -/
def clamped (v : Voice) (value low high : UInt8) (what : String) : UInt8 × Voice :=
  let nearest := if value < low then low else if high < value then high else value
  (nearest, v.logging (·.warnOnceIf (value < low || high < value) .clamped
    s!"{what} {value} clamped to {low}..{high}"))

/-- Add an instruction to the current row. -/
def emit (v : Voice) (i : Instruction) : Voice := { v with row := v.row ++ [i] }

/-- Warn about an operation that the kernel lacks. -/
def lacking (v : Voice) (job : Job) (op : Op) : Voice :=
  let kernel := job.kernel.name
  let name := op.name
  v.logging (·.warnOnce .unsupportedFeature
    s!"The {kernel} kernel does not support {name} instructions, ignored")

/-- Add an operation to the current row; a kernel that lacks it gets a warning instead. -/
def issue (v : Voice) (job : Job) (op : Op) (bytes : List UInt8) : Voice :=
  if job.kernel.supports op then v.emit (.op op bytes []) else v.lacking job op

/-- Add an operation with the address of a label. -/
def issueAt (v : Voice) (job : Job) (op : Op) (label : Label) : Voice :=
  if job.kernel.supports op then
    let (id, tables) := v.tables.symbol (label.text job.stem)
    { v with tables }.emit (.op op [] [.symbol id])
  else v.lacking job op

end Voice

end Chiptune.Stream
