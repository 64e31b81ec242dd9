import Chiptune.Json
import Chiptune.Project

/-!
# Project files: writing

Fields are written in the order of their declaration. Optional attributes of notes, songs and
envelopes are left out when they are not set.
-/

set_option autoImplicit false

namespace Chiptune

open Json

namespace Write

/-- Member of a field that is left out when it is not set. -/
def ifSome {α : Type} (name : String) (write : α → Json) : Option α → List (String × Json)
  | none => []
  | some a => [(name, write a)]

def uint8 (b : UInt8) : Json := nat b.toNat

def int8 (i : Int8) : Json := number i.toInt

def uint16 (w : UInt16) : Json := nat w.toNat

def envelope (e : Envelope) : Json :=
  object <|
    [("values", ofList int8 e.values)] ++ ifSome "loop" nat e.loopPoint ++
    ifSome "release" nat e.release ++ [("relative", bool e.relative)]

def envelopeSet (s : EnvelopeSet) : Json :=
  object <| s.toList.map fun entry => (entry.1.key, envelope entry.2)

def instrumentKind : InstrumentKind → Json
  | .apu => object [("type", string "apu")]
  | .vrc6 => object [("type", string "vrc6")]
  | .vrc7 patch regs =>
    object [("type", string "vrc7"), ("patch", uint8 patch), ("regs", ofList uint8 regs.toList)]
  | .fds speed depth delay =>
    object [("type", string "fds"), ("mod_speed", uint16 speed), ("mod_depth", uint8 depth),
      ("mod_delay", uint8 delay)]
  | .mmc5 => object [("type", string "mmc5")]
  | .n163 pos size =>
    object [("type", string "n163"), ("wave_pos", uint8 pos), ("wave_size", uint8 size)]
  | .s5b => object [("type", string "s5b")]

def instrument (i : Instrument) : Json :=
  object [("name", string i.name), ("kind", instrumentKind i.kind),
    ("envelopes", envelopeSet i.envelopes)]

def arpeggio (a : Arpeggio) : Json :=
  object [("name", string a.name), ("envelope", envelope a.envelope)]

def sample (s : Sample) : Json :=
  object [("name", string s.name), ("data", ofList uint8 s.data)]

def sampleMapping (m : SampleMapping) : Json :=
  object [("note", uint8 m.note), ("sample", nat m.sample), ("pitch", uint8 m.pitch),
    ("looping", bool m.looping)]

def noteValue : NoteValue → Json
  | .pitch value => object [("pitch", uint8 value)]
  | .stop => string "stop"
  | .release => string "release"

def vibrato (v : Vibrato) : Json :=
  object [("speed", uint8 v.speed), ("depth", uint8 v.depth)]

def note (n : Note) : Json :=
  object <|
    [("row", nat n.row)] ++ ifSome "value" noteValue n.value ++
    ifSome "instrument" nat n.instrument ++ ifSome "arpeggio" nat n.arpeggio ++
    ifSome "volume" uint8 n.volume ++ ifSome "fine_pitch" int8 n.finePitch ++
    ifSome "vibrato" vibrato n.vibrato ++ ifSome "slide_to" uint8 n.slideTo ++
    ifSome "duty" uint8 n.duty ++ ifSome "note_delay" uint8 n.noteDelay ++
    ifSome "cut_delay" uint8 n.cutDelay ++ ifSome "speed" uint8 n.speed ++
    ifSome "delta_counter" uint8 n.deltaCounter ++
    ifSome "fds_mod_speed" uint16 n.fdsModSpeed ++ ifSome "fds_mod_depth" uint8 n.fdsModDepth

def pattern (p : Pattern) : Json := object [("notes", ofList note p.notes)]

def track (t : Track) : Json :=
  object [("kind", string t.channel.key), ("patterns", ofList pattern t.patterns),
    ("order", ofList (ofOption nat) t.order)]

def positionOverride (o : PositionOverride) : Json :=
  object <|
    [("position", nat o.position)] ++ ifSome "length" nat o.length ++
    ifSome "groove" (ofList uint8) o.groove

/-- Member of the overrides, which is left out when there are none. -/
def overrides : List PositionOverride → List (String × Json)
  | [] => []
  | os => [("position_overrides", ofList positionOverride os)]

def song (s : Song) : Json :=
  object <|
    [("name", string s.name), ("length", nat s.length),
      ("pattern_length", nat s.patternLength)] ++
    overrides s.overrides ++ ifSome "loop_point" nat s.loopPoint ++
    [("speed", uint8 s.speed), ("tempo", uint16 s.tempo), ("groove", ofList uint8 s.groove),
      ("channels", ofList track s.tracks)]

def project (p : Project) : Json :=
  object [("name", string p.name),
    ("expansions", ofList (fun chip => string chip.key) p.expansions.toList),
    ("n163_channels", nat p.n163Channels), ("tempo_mode", string p.tempoMode.key),
    ("machine", string p.machine.key), ("instruments", ofList instrument p.instruments),
    ("arpeggios", ofList arpeggio p.arpeggios), ("samples", ofList sample p.samples),
    ("sample_mappings", ofList sampleMapping p.mappings), ("songs", ofList song p.songs)]

end Write

/-- JSON text of a project. -/
def Project.toJson (p : Project) : String := (Write.project p).compact

end Chiptune
