import Chiptune.Json.Reader
import Chiptune.Project

/-!
# Project files: reading

A project file is a JSON object. Every field of a project has a default; unknown fields are
skipped. The fields of an instrument's kind stand beside its `type`, which may come last, so they
are kept until it is known.
-/

set_option autoImplicit false

namespace Chiptune

open Json Json.Reader

/-- Deepest nesting of lists and objects in a part of a file that is kept for later. -/
def nestingLimit : Nat := 127

namespace Read

def expansion : Reader Expansion := enum Expansion.all Expansion.key

def channel : Reader Channel := enum Channel.all Channel.key

def envelopeKind : Reader EnvelopeKind := enum EnvelopeKind.all EnvelopeKind.key

def tempoMode : Reader TempoMode := enum TempoMode.all TempoMode.key

def machine : Reader Machine := enum Machine.all Machine.key

def envelope : Reader Envelope :=
  record { values := [] }
    [required "values" (list int8) fun e v => { e with values := v },
      optional "loop" (option nat) fun e v => { e with loopPoint := v },
      optional "release" (option nat) fun e v => { e with release := v },
      optional "relative" bool fun e v => { e with relative := v }]

/-- Reader of an object that maps kinds to envelopes; of two of one kind the later stays. -/
def envelopeSet : Reader EnvelopeSet
  | .object entries stop => do
    let pairs ← entries.mapM fun entry => do
      let kind ← lookup EnvelopeKind.all EnvelopeKind.key (← entry.1)
      let e ← envelope entry.2
      Except.ok (kind, e)
    Source.stopAt stop
    .ok (EnvelopeSet.ofList pairs)
  | .keyless => .error .malformed
  | source => .error source.unexpected

/-- Reader of the fields of a kind without fields. -/
def plainKind (kind : InstrumentKind) : Reader InstrumentKind := record kind []

def vrc7Kind : Reader InstrumentKind := fun source => do
  let fields : List (Reader.Field (UInt8 × Vector UInt8 8)) :=
    [required "patch" uint8 fun k v => (v, k.2),
      optional "regs" (vector 8 uint8) fun k v => (k.1, v)]
  let (patch, regs) ← record (0, Vector.replicate 8 0) fields source
  .ok (.vrc7 patch regs)

def fdsKind : Reader InstrumentKind := fun source => do
  let fields : List (Reader.Field (UInt16 × UInt8 × UInt8)) :=
    [optional "mod_speed" uint16 fun k v => (v, k.2),
      optional "mod_depth" uint8 fun k v => (k.1, v, k.2.2),
      optional "mod_delay" uint8 fun k v => (k.1, k.2.1, v)]
  let (speed, depth, delay) ← record (0, 0, 0) fields source
  .ok (.fds speed depth delay)

def n163Kind : Reader InstrumentKind := fun source => do
  let fields : List (Reader.Field (UInt8 × UInt8)) :=
    [required "wave_pos" uint8 fun k v => (v, k.2),
      required "wave_size" uint8 fun k v => (k.1, v)]
  let (pos, size) ← record (0, 0) fields source
  .ok (.n163 pos size)

/-- Readers of the fields of each type of instrument. -/
def kinds : List (String × Reader InstrumentKind) :=
  [("apu", plainKind .apu), ("vrc6", plainKind .vrc6), ("vrc7", vrc7Kind), ("fds", fdsKind),
    ("mmc5", plainKind .mmc5), ("n163", n163Kind), ("s5b", plainKind .s5b)]

/-- Reader of the type of an instrument. -/
def kindType : Reader (String × Reader InstrumentKind) := fun source => do
  lookup kinds Prod.fst (← string source)

/-- Read kept fields; whatever is wrong with them, the text itself was read without a problem. -/
def kept {α : Type} (read : Reader α) (source : Source) : Except JsonProblem α :=
  (read source).mapError fun _ => .mismatch

/-- Reader of an instrument's kind, from an object with a member `type` or an array that begins with
the type. The values in it nest at most `depth` deep. -/
def instrumentKind (depth : Nat) : Reader InstrumentKind
  | .object entries stop => do
    let tag ← entries.foldlM (fun tag entry => do
      let key ← entry.1
      if key = "type" then
        if Option.isSome tag then .error .mismatch
        else
          let read ← kindType entry.2
          .ok (some read)
      else
        entry.2.keep depth
        .ok tag) none
    Source.stopAt stop
    let isField : Except JsonProblem String × Source → Bool
      | (.ok key, _) => key != "type"
      | _ => true
    match tag with
    | some tag => kept tag.2 (.object (entries.filter isField) .closed)
    | none => .error .mismatch
  | .array (item :: rest) stop => do
    let tag ← kindType item
    Source.keepItems depth rest
    Source.stopAt stop
    kept tag.2 (.array rest .closed)
  | .array [] stop => Source.stopAt stop *> .error .mismatch
  | .keyless => .error .malformed
  | source => .error source.unexpected

/-- Reader of an instrument that stands inside `outer` lists or objects. -/
def instrument (outer : Nat) : Reader Instrument :=
  record { name := "", kind := .apu }
    [required "name" string fun i v => { i with name := v },
      required "kind" (instrumentKind (nestingLimit - outer - 2)) fun i v => { i with kind := v },
      optional "envelopes" envelopeSet fun i v => { i with envelopes := v }]

def arpeggio : Reader Arpeggio :=
  record { name := "", envelope := { values := [] } }
    [required "name" string fun a v => { a with name := v },
      required "envelope" envelope fun a v => { a with envelope := v }]

def sample : Reader Sample :=
  record { name := "", data := [] }
    [required "name" string fun s v => { s with name := v },
      required "data" (list uint8) fun s v => { s with data := v }]

def sampleMapping : Reader SampleMapping :=
  record { note := 0, sample := 0 }
    [required "note" uint8 fun m v => { m with note := v },
      required "sample" nat fun m v => { m with sample := v },
      optional "pitch" uint8 fun m v => { m with pitch := v },
      optional "looping" bool fun m v => { m with looping := v }]

def noteValue : Reader NoteValue :=
  variant
    (fun
      | "stop" => .ok .stop
      | "release" => .ok .release
      | _ => .error .mismatch)
    (fun
      | "pitch" => .ok fun source => NoteValue.pitch <$> uint8 source
      | "stop" => .ok fun source => null source *> .ok .stop
      | "release" => .ok fun source => null source *> .ok .release
      | _ => .error .mismatch)

def vibrato : Reader Vibrato :=
  record { speed := 0, depth := 0 }
    [required "speed" uint8 fun v x => { v with speed := x },
      required "depth" uint8 fun v x => { v with depth := x }]

def note : Reader Note :=
  record { row := 0 }
    [required "row" nat fun n v => { n with row := v },
      optional "value" (option noteValue) fun n v => { n with value := v },
      optional "instrument" (option nat) fun n v => { n with instrument := v },
      optional "arpeggio" (option nat) fun n v => { n with arpeggio := v },
      optional "volume" (option uint8) fun n v => { n with volume := v },
      optional "fine_pitch" (option int8) fun n v => { n with finePitch := v },
      optional "vibrato" (option vibrato) fun n v => { n with vibrato := v },
      optional "slide_to" (option uint8) fun n v => { n with slideTo := v },
      optional "duty" (option uint8) fun n v => { n with duty := v },
      optional "note_delay" (option uint8) fun n v => { n with noteDelay := v },
      optional "cut_delay" (option uint8) fun n v => { n with cutDelay := v },
      optional "speed" (option uint8) fun n v => { n with speed := v },
      optional "delta_counter" (option uint8) fun n v => { n with deltaCounter := v },
      optional "fds_mod_speed" (option uint16) fun n v => { n with fdsModSpeed := v },
      optional "fds_mod_depth" (option uint8) fun n v => { n with fdsModDepth := v }]

def pattern : Reader Pattern :=
  record {} [optional "notes" (list note) fun p v => { p with notes := v }]

def track : Reader Track :=
  record { channel := .square1 }
    [required "kind" channel fun t v => { t with channel := v },
      optional "patterns" (list pattern) fun t v => { t with patterns := v },
      optional "order" (list (option nat)) fun t v => { t with order := v }]

def positionOverride : Reader PositionOverride :=
  record { position := 0 }
    [required "position" nat fun o v => { o with position := v },
      optional "length" (option nat) fun o v => { o with length := v },
      optional "groove" (option (list uint8)) fun o v => { o with groove := v }]

def song : Reader Song :=
  record { name := "", length := 0, patternLength := 0, tracks := [] }
    [required "name" string fun s v => { s with name := v },
      required "length" nat fun s v => { s with length := v },
      required "pattern_length" nat fun s v => { s with patternLength := v },
      optional "position_overrides" (list positionOverride) fun s v => { s with overrides := v },
      optional "loop_point" (option nat) fun s v => { s with loopPoint := v },
      optional "speed" uint8 fun s v => { s with speed := v },
      optional "tempo" uint16 fun s v => { s with tempo := v },
      optional "groove" (list uint8) fun s v => { s with groove := v },
      required "channels" (list track) fun s v => { s with tracks := v }]

def project : Reader Project :=
  record {}
    [optional "name" string fun p v => { p with name := v },
      optional "expansions" (list expansion) fun p v =>
        { p with expansions := ExpansionSet.ofList v },
      optional "n163_channels" nat fun p v => { p with n163Channels := v },
      optional "tempo_mode" tempoMode fun p v => { p with tempoMode := v },
      optional "machine" machine fun p v => { p with machine := v },
      optional "instruments" (list (instrument 2)) fun p v => { p with instruments := v },
      optional "arpeggios" (list arpeggio) fun p v => { p with arpeggios := v },
      optional "samples" (list sample) fun p v => { p with samples := v },
      optional "sample_mappings" (list sampleMapping) fun p v => { p with mappings := v },
      optional "songs" (list song) fun p v => { p with songs := v }]

end Read

/-- Project of a JSON text. -/
def Project.ofJson (bytes : List UInt8) : Except JsonProblem Project := text Read.project bytes

end Chiptune
