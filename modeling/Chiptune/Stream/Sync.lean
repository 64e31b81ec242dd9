import Chiptune.Pitch
import Chiptune.Stream.Voice

/-!
# Instructions of one row

A cell first changes what the song asks for (`Voice.want`), then every setting that the driver does
not have yet is sent (`Voice.syncContinuous`, `Voice.syncInstrument`, `Voice.syncArpeggio`), and
last the note itself. A row that fails leaves the state as it was before the failing step.
-/

set_option autoImplicit false

namespace Chiptune.Stream

/-- Largest value of the delta counter. -/
def maxDeltaCounter : UInt8 := 127

/-- Largest FDS modulation speed. -/
def maxFdsModSpeed : UInt16 := 4095

/-- Largest FDS modulation depth. -/
def maxFdsModDepth : UInt8 := 63

namespace Voice

/-! ## Tempo -/

/-- Take the tempo of a row. -/
def wantTempo (v : Voice) (job : Job) (row : Row) (speed : Option UInt8) : Voice :=
  match job.project.tempoMode with
  | .speed =>
    match speed with
    | some speed =>
      let (speed, v) := v.clamped speed 1 31 "Speed"
      { v with wanted := { v.wanted with speed } }
    | none => v
  | .groove =>
    let v :=
      match if row.isFirst then job.song.positionGroove row.position else none with
      | some groove =>
        let (groove, tables) := v.tables.groove groove
        { v with wanted := { v.wanted with groove }, tables }
      | none => v
    v.logging (·.warnOnceIf speed.isSome .unsupportedFeature
      "Speed changes are ignored in groove tempo mode")

/-- Send the tempo if the driver has another one. -/
def syncTempo (v : Voice) (job : Job) : Voice :=
  match job.project.tempoMode with
  | .speed =>
    let speed := v.wanted.speed
    if v.told.speed = some speed then v
    else if job.kernel.supports .speed then
      { v.issue job .speed [speed] with told := { v.told with speed := some speed } }
    else v.lacking job .speed
  | .groove =>
    let groove := v.wanted.groove
    if v.told.groove = some groove then v
    else if job.kernel.supports .groove then
      { v.issueAt job .groove (.groove groove) with told := { v.told with groove := some groove } }
    else v.lacking job .groove

/-! ## Attributes -/

/-- Take the volume of a cell. -/
def wantVolume (v : Voice) (job : Job) (volume : UInt8) : Voice :=
  if job.channel.supportsVolume then
    let (volume, v) := v.clamped volume 0 15 "Volume"
    { v with wanted := { v.wanted with volume } }
  else v.unsupported job "Volume"

/-- Take the fine pitch of a cell. -/
def wantFinePitch (v : Voice) (job : Job) (finePitch : Int8) : Voice :=
  if job.channel.supportsFinePitch then { v with wanted := { v.wanted with finePitch } }
  else v.unsupported job "Fine pitch"

/-- Take the vibrato of a cell; a speed or depth of 0 stops it. -/
def wantVibrato (v : Voice) (job : Job) (vibrato : Vibrato) : Voice :=
  if job.channel.supportsVibrato then
    let vibrato := if 0 < vibrato.speed ∧ 0 < vibrato.depth then some vibrato else none
    { v with wanted := { v.wanted with vibrato } }
  else v.unsupported job "Vibrato"

/-- Take the duty of a cell. -/
def wantDuty (v : Voice) (job : Job) (duty : UInt8) : Voice :=
  if job.channel.supportsDuty then
    let (duty, v) := v.clamped duty 0 job.channel.dutyLimit "Duty"
    { v with wanted := { v.wanted with duty := some duty } }
  else v.unsupported job "Duty"

/-- Take the FDS modulation speed of a cell. -/
def wantFdsModSpeed (v : Voice) (speed : UInt16) : Voice :=
  let v := v.logging (·.warnOnceIf (maxFdsModSpeed < speed) .clamped
    "FDS modulation speed clamped to 4095")
  { v with wanted := { v.wanted with fdsModSpeed := some (min maxFdsModSpeed speed) } }

/-- Take the FDS modulation depth of a cell. -/
def wantFdsModDepth (v : Voice) (depth : UInt8) : Voice :=
  let (depth, v) := v.clamped depth 0 maxFdsModDepth "FDS modulation depth"
  { v with wanted := { v.wanted with fdsModDepth := some depth } }

/-- Apply a step for an attribute that a cell has. -/
def withSome {α : Type} (v : Voice) (value : Option α) (step : Voice → α → Voice) : Voice :=
  match value with
  | some a => step v a
  | none => v

/-- Take the attributes of a cell. -/
def want (v : Voice) (job : Job) (note : Note) : Voice :=
  let v := v.withSome note.volume (wantVolume · job)
  let v := v.withSome note.finePitch (wantFinePitch · job)
  let v := v.withSome note.vibrato (wantVibrato · job)
  let v := v.withSome note.duty (wantDuty · job)
  if note.fdsModSpeed.isSome || note.fdsModDepth.isSome then
    if job.channel.supportsFdsModulation then
      let v := v.withSome note.fdsModSpeed wantFdsModSpeed
      v.withSome note.fdsModDepth wantFdsModDepth
    else v.unsupported job "FDS modulation"
  else v

/-! ## Continuous settings -/

/-- Send the volume if the driver has another one. -/
def syncVolume (v : Voice) (job : Job) : Voice :=
  let volume := v.wanted.volume
  if v.told.volume = some volume then v
  else if job.kernel.supports .volume then
    { v.issue job .volume [volume] with told := { v.told with volume := some volume } }
  else v.lacking job .volume

/-- Send the fine pitch if the driver has another one. -/
def syncFinePitch (v : Voice) (job : Job) : Voice :=
  let finePitch := v.wanted.finePitch
  if v.told.finePitch = some finePitch then v
  else if job.kernel.supports .finePitch then
    { v.issue job .finePitch [finePitch.toUInt8] with
      told := { v.told with finePitch := some finePitch } }
  else v.lacking job .finePitch

/-- Send the vibrato if the driver has another one. Without a vibrato the default curve takes the
place of the last one before the override ends. -/
def syncVibrato (v : Voice) (job : Job) : Except Fault Voice :=
  let vibrato := v.wanted.vibrato
  if v.told.vibrato = some vibrato then .ok v
  else if job.kernel.supports .vibratoOverride then do
    let told := { v.told with vibrato := some vibrato }
    match vibrato with
    | some setting =>
      let (index, tables) ← v.tables.vibrato setting
      .ok { { v with tables }.issueAt job .vibratoOverride (.envelope index) with told }
    | none =>
      let v := v.issueAt job .vibratoOverride (.envelope Tables.defaultCurve)
      .ok { v.issue job .clearPitchOverride [] with told }
  else .ok (v.lacking job .vibratoOverride)

/-- Send the duty if the driver has another one. -/
def syncDuty (v : Voice) (job : Job) : Voice :=
  v.withSome v.wanted.duty fun v duty =>
    if v.told.duty = some duty then v
    else if job.kernel.supports .duty then
      { v.issue job .duty [duty] with told := { v.told with duty := some duty } }
    else v.lacking job .duty

/-- Send the FDS modulation speed if the driver has another one, low byte first. -/
def syncFdsModSpeed (v : Voice) (job : Job) : Voice :=
  v.withSome v.wanted.fdsModSpeed fun v speed =>
    if v.told.fdsModSpeed = some speed then v
    else if job.kernel.supports .fdsModSpeed then
      { v.issue job .fdsModSpeed [speed.toUInt8, (speed >>> 8).toUInt8] with
        told := { v.told with fdsModSpeed := some speed } }
    else v.lacking job .fdsModSpeed

/-- Send the FDS modulation depth if the driver has another one. -/
def syncFdsModDepth (v : Voice) (job : Job) : Voice :=
  v.withSome v.wanted.fdsModDepth fun v depth =>
    if v.told.fdsModDepth = some depth then v
    else if job.kernel.supports .fdsModDepth then
      { v.issue job .fdsModDepth [depth] with told := { v.told with fdsModDepth := some depth } }
    else v.lacking job .fdsModDepth

/-- Send every continuous setting that the driver does not have. -/
def syncContinuous (v : Voice) (job : Job) : Except Fault Voice := do
  let v := (v.syncVolume job).syncFinePitch job
  let v ← v.syncVibrato job
  .ok (((v.syncDuty job).syncFdsModSpeed job).syncFdsModDepth job)

/-! ## Instrument and arpeggio -/

/-- Send the instrument of a pitched cell. A custom patch is sent again when another channel has
loaded its own since. Loading an instrument resets duty and modulation. -/
def syncInstrument (v : Voice) (job : Job) (note : Note) (row : Nat) : Except Error Voice :=
  if job.channel.instrumentTable.isNone then .ok v
  else
    let current := note.instrument <|> v.wanted.instrument
    let v := { v with wanted := { v.wanted with instrument := current } }
    match current with
    | none => .ok v
    | some index =>
      match job.project.instruments[index]? with
      | none => .error (.missingInstrument index)
      | some instrument =>
        let name := instrument.name
        let kind := instrument.kind.name
        if !instrument.kind.fits job.channel then
          let channel := job.channel.shortName
          .error (.unsupportedInstrument name kind s!"on channel {channel}")
        else match job.slots.slot index with
          | none =>
            let kernel := job.kernel.name
            .error (.unsupportedInstrument name kind s!"by the {kernel} kernel")
          | some slot =>
            let isCustom := instrument.kind.isVrc7Custom
            let isLost := isCustom && job.patches.any (·.overwritten index v.lastPatchRow row)
            let isDue := v.told.instrument != some index || isLost
            let v := if isCustom then { v with lastPatchRow := some row } else v
            if isDue then
              .ok { v.emit (.instrument slot) with
                told := { v.told with
                  instrument := some index, duty := none, fdsModSpeed := none
                  fdsModDepth := none } }
            else .ok v

/-- Send the arpeggio of a pitched cell. The same arpeggio starts again from its beginning. -/
def syncArpeggio (v : Voice) (job : Job) (note : Note) : Except Error Voice :=
  let told := { v.told with arpeggio := some note.arpeggio }
  match note.arpeggio with
  | some index =>
    match job.arpeggios[index]? with
    | none => .error (.missingArpeggio index)
    | some curve =>
      if !job.channel.supportsArpeggio then .ok (v.unsupported job "Arpeggio")
      else if !job.kernel.supports .arpOverride then .ok (v.lacking job .arpOverride)
      else if v.told.arpeggio = some (some index) then .ok { v.issue job .resetArp [] with told }
      else .ok { v.issueAt job .arpOverride (.envelope curve) with told }
  | none =>
    if !job.kernel.supports .arpOverride then .ok v
    else if v.told.arpeggio = some none then .ok v
    else
      let v := v.issueAt job .arpOverride (.envelope Tables.defaultCurve)
      .ok { v.issue job .clearArpOverride [] with told }

/-! ## Notes -/

/-- Send the delays of a cell. -/
def delays (v : Voice) (job : Job) (note : Note) : Voice :=
  let v := v.withSome note.noteDelay fun v delay => v.issue job .noteDelay [delay]
  v.withSome note.cutDelay fun v delay => v.issue job .cutDelay [delay]

/-- Put an instruction before the instruction that takes up the row. -/
def insertBeforeNote (i : Instruction) : List Instruction → List Instruction
  | [] => [i]
  | first :: rest =>
    if first.advancesRow then i :: first :: rest else first :: insertBeforeNote i rest

/-- Send the delta counter of a cell, before the row's note so that it is set when the note plays.
-/
def deltaCounter (v : Voice) (job : Job) (value : UInt8) : Voice :=
  if !job.channel.supportsDeltaCounter then v.unsupported job "Delta counter"
  else
    let (value, v) := v.clamped value 0 maxDeltaCounter "Delta counter"
    if job.kernel.supports .deltaCounter then
      { v with row := insertBeforeNote (.op .deltaCounter [value] []) v.row }
    else v.lacking job .deltaCounter

/-- Play the sample that a note is mapped to; the note byte is the number of the mapping. The answer
says whether the row is taken up. -/
def sampleNote (v : Voice) (job : Job) (value : UInt8) : Except Error (Voice × Bool) :=
  match job.project.mappings.findIdx? (·.note == value) with
  | none =>
    .ok (v.logging (·.warnOnce .unsupportedFeature
      s!"No sample is mapped to DPCM note {value}, note ignored"), false)
  | some index =>
    match job.project.mappings[index]? with
    | none => .error (.fault .index)
    | some mapping =>
      if job.project.samples.length ≤ mapping.sample then .error (.missingSample mapping.sample)
      else if noteWindow.toNat ≤ index then
        .ok (v.logging (·.warnOnce .tableOverflow
          s!"Sample mapping {index} exceeds the {noteWindow} addressable mappings, note ignored"),
          false)
      else .ok (v.emit (.note (UInt8.ofNat (index + 1) + noteBias) false), true)

/-- Rows from a pitched cell to the next cell with a value, or to the end of the song. -/
def rowsToNext : List Row → Nat
  | [] => 1
  | row :: rest => if (row.note.bind (·.value)).isSome then 1 else rowsToNext rest + 1

/-- Step of a slide that starts on a row, given the rows behind it. -/
def slideStepAt (v : Voice) (job : Job) (row : Row) (rest : List Row) (source target : UInt8) :
    Int8 :=
  let count := Float.ofNat (rowsToNext rest)
  let frames (machine : Machine) : Float :=
    count * framesPerRow job.song v.wanted.speed job.project.tempoMode machine row.position
  slideStep job.channel.pitchProfile job.machine source target (frames .ntsc) (frames .pal)

/-- Play a note: in one byte if it lies in the kernel's window. -/
def plainNote (v : Voice) (job : Job) (value : UInt8) : Voice :=
  match job.kernel.noteByte value with
  | some _ => v.emit (.note value false)
  | none => v.issue job .extendedNote [value]

/-- Play a pitched note, as a slide if it has a target with another register value. -/
def pitchedNote (v : Voice) (job : Job) (row : Row) (rest : List Row) (note : Note)
    (value : UInt8) : Voice :=
  let (value, v) := v.clamped value noteMin noteMax "Note"
  match note.slideTo with
  | none => v.plainNote job value
  | some target =>
    let (target, v) := v.clamped target noteMin noteMax "Slide target"
    if !job.channel.supportsSlide then (v.unsupported job "Slide").plainNote job value
    else if !job.kernel.supports .slide then (v.lacking job .slide).plainNote job value
    else
      let step := v.slideStepAt job row rest value target
      if step = 0 then v.plainNote job value
      else v.issue job .slide [step.toUInt8, value, target]

/-! ## Rows -/

/-- A step that fails without a change. -/
def attempt {α ε : Type} (v : Voice) (fail : ε → Error) (step : Except ε α) :
    Except (Error × Voice) α :=
  step.mapError fun e => (fail e, v)

/-- Send the note of a cell. The answer says whether the row is taken up. -/
def playValue (v : Voice) (job : Job) (index : Nat) (row : Row) (rest : List Row) (note : Note) :
    Except (Error × Voice) (Voice × Bool) :=
  match note.value with
  | some (.pitch value) =>
    if job.channel = .dpcm then do
      let v ← v.attempt .fault (v.syncContinuous job)
      let v := v.delays job note
      v.attempt id (v.sampleNote job value)
    else do
      let v ← v.attempt id (v.syncInstrument job note index)
      let v ← v.attempt id (v.syncArpeggio job note)
      let v ← v.attempt .fault (v.syncContinuous job)
      let v := v.delays job note
      .ok (v.pitchedNote job row rest note value, true)
  | some .stop => do
    let v ← v.attempt .fault (v.syncContinuous job)
    .ok ((v.delays job note).emit (.note 0 false), true)
  | some .release => do
    let v ← v.attempt .fault (v.syncContinuous job)
    if job.kernel.allowsReleases then
      .ok ((v.delays job note).issue job .release [], job.kernel.supports .release)
    else
      let kernel := job.kernel.name
      .ok (v.logging (·.warnOnce .unsupportedFeature
        s!"The {kernel} kernel does not support note releases, releases are ignored"), false)
  | none => do
    let v ← v.attempt .fault (v.syncContinuous job)
    .ok (v, false)

/-- Process a row: the state behind it and whether the row is taken up. -/
def processRow (v : Voice) (job : Job) (index : Nat) (row : Row) (speed : Option UInt8)
    (rest : List Row) : Except (Error × Voice) (Voice × Bool) := do
  let v := v.wantTempo job row speed
  let v := if job.carriesTempo then v.syncTempo job else v
  match row.note with
  | none => .ok (v, false)
  | some note =>
    let (v, advances) ← (v.want job note).playValue job index row rest note
    .ok (v.withSome note.deltaCounter (deltaCounter · job), advances)

end Voice

end Chiptune.Stream
