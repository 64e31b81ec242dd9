import Chiptune.Instrument
import Chiptune.Song

/-!
# Music projects

A project is the whole input of a compile: the chips it uses, its instruments, arpeggios and
samples, and its songs.
-/

set_option autoImplicit false

namespace Chiptune

/-- Lowest playable note. -/
def noteMin : UInt8 := 1

/-- Highest playable note. -/
def noteMax : UInt8 := 96

/-- How the length of a row is given. -/
inductive TempoMode
  /-- A speed and a tempo. -/
  | speed
  /-- Frames per row, cycled from a groove. -/
  | groove
  deriving DecidableEq

namespace TempoMode

def all : List TempoMode := [speed, groove]

/-- Name in project files. -/
def key : TempoMode → String
  | speed => "fami_tracker"
  | groove => "groove"

end TempoMode

/-- Video region of the console. -/
inductive Machine
  | ntsc
  | pal
  /-- The data must play acceptably in both regions. -/
  | dual
  deriving DecidableEq

namespace Machine

def all : List Machine := [ntsc, pal, dual]

/-- Name in project files. -/
def key : Machine → String
  | ntsc => "ntsc"
  | pal => "pal"
  | dual => "dual"

end Machine

/-- Music project. -/
structure Project where
  name : String := ""
  expansions : ExpansionSet := {}
  /-- Number of active N163 channels. -/
  n163Channels : Nat := 1
  tempoMode : TempoMode := .speed
  machine : Machine := .ntsc
  instruments : List Instrument := []
  arpeggios : List Arpeggio := []
  samples : List Sample := []
  mappings : List SampleMapping := []
  songs : List Song := []
  deriving DecidableEq

namespace Project

/-- Whether the project adds a chip. -/
def uses (p : Project) (chip : Expansion) : Bool := p.expansions.contains chip

/-- Whether the project's hardware has a channel. -/
def hasChannel (p : Project) (channel : Channel) : Bool :=
  match channel.expansion, channel.n163Index with
  | none, _ => true
  | some _, some index => p.uses .n163 && index < p.n163Channels
  | some chip, none => p.uses chip

/-- The channels of the project's hardware in canonical order. -/
def channels (p : Project) : List Channel := Channel.all.filter p.hasChannel

end Project

end Chiptune
