import Chiptune.Channel

/-!
# Songs of a score

A song is a list of positions; at each position every channel plays one of its patterns, and a
pattern is a set of cells (`Note`) placed on rows. A position may have a length and a groove of
its own (`PositionOverride`).
-/

set_option autoImplicit false

namespace Chiptune

/-- What a cell does to the sounding note. -/
inductive NoteValue
  | pitch (value : UInt8)
  | stop
  | release
  deriving DecidableEq

/-- Speed and depth of a vibrato. -/
structure Vibrato where
  speed : UInt8
  depth : UInt8
  deriving DecidableEq

/-- Cell of a pattern. Every attribute is optional. -/
structure Note where
  row : Nat
  value : Option NoteValue := none
  instrument : Option Nat := none
  /-- Arpeggio that plays with a pitched note; none stops it. -/
  arpeggio : Option Nat := none
  volume : Option UInt8 := none
  finePitch : Option Int8 := none
  vibrato : Option Vibrato := none
  slideTo : Option UInt8 := none
  duty : Option UInt8 := none
  noteDelay : Option UInt8 := none
  cutDelay : Option UInt8 := none
  speed : Option UInt8 := none
  deltaCounter : Option UInt8 := none
  fdsModSpeed : Option UInt16 := none
  fdsModDepth : Option UInt8 := none
  deriving DecidableEq

/-- Whether the cell has no value and no attribute, so that it plays nothing. -/
def Note.isEmpty (n : Note) : Bool := n == { row := n.row }

/-- Cells of one stretch of a channel. -/
structure Pattern where
  notes : List Note := []
  deriving DecidableEq

/-- Patterns and order list of one channel. -/
structure Track where
  channel : Channel
  patterns : List Pattern := []
  /-- Pattern played at each position; none is silence. -/
  order : List (Option Nat) := []
  deriving DecidableEq

/-- Index of the pattern played at a position. -/
def Track.patternAt (t : Track) (position : Nat) : Option Nat := t.order[position]?.join

/-- Length and groove of one position that differ from the song's. -/
structure PositionOverride where
  position : Nat
  length : Option Nat := none
  groove : Option (List UInt8) := none
  deriving DecidableEq

/-- Song of a score. -/
structure Song where
  name : String
  /-- Number of positions. -/
  length : Nat
  /-- Rows of a position that has no length of its own. -/
  patternLength : Nat
  overrides : List PositionOverride := []
  /-- Position that the song returns to after the last one. -/
  loopPoint : Option Nat := none
  speed : UInt8 := 6
  tempo : UInt16 := 150
  /-- Frames per row, cycled, in groove tempo mode. -/
  groove : List UInt8 := [6]
  tracks : List Track
  deriving DecidableEq

namespace Song

/-- The first override of a position. -/
def overrideAt (s : Song) (position : Nat) : Option PositionOverride :=
  s.overrides.find? (·.position == position)

/-- Number of rows of a position. -/
def positionLength (s : Song) (position : Nat) : Nat :=
  ((s.overrideAt position).bind (·.length)).getD s.patternLength

/-- Groove that starts at a position. -/
def positionGroove (s : Song) (position : Nat) : Option (List UInt8) :=
  (s.overrideAt position).bind (·.groove)

/-- Groove in effect at a position: the last one that starts at or before it. -/
def grooveAt (s : Song) : Nat → List UInt8
  | 0 => (s.positionGroove 0).getD s.groove
  | position + 1 =>
    match s.positionGroove (position + 1) with
    | some groove => groove
    | none => s.grooveAt position

/-- The first track of a channel. -/
def track (s : Song) (channel : Channel) : Option Track :=
  s.tracks.find? (·.channel == channel)

end Song

end Chiptune
