import Chiptune.Capacity
import Chiptune.Song

/-!
# Rows of a song

Playing a track position by position gives a sequence of rows, the same skeleton for every track of
a song. A row carries the first cell that the position's pattern places on it. The positions are
played one after the other up to the first one that has too many rows or a pattern that the track
does not have.
-/

set_option autoImplicit false

namespace Chiptune

/-- Row of a song on one channel. -/
structure Row where
  position : Nat
  /-- Whether it is the first row of its position. -/
  isFirst : Bool
  note : Option Note
  deriving DecidableEq

/-- Cells by row: of the cells on one row the first, those on rows beyond `count` nowhere. -/
def cellRows (count : Nat) (cells : List Note) : Array (Option Note) :=
  cells.foldr (fun cell rows => rows.setIfInBounds cell.row (some cell))
    (Array.replicate count none)

@[simp]
theorem size_cellRows (count : Nat) (cells : List Note) : (cellRows count cells).size = count := by
  induction cells with
  | nil => simp [cellRows]
  | cons cell rest ih => simpa [cellRows] using ih

namespace Song

/-- Cells that a track plays at a position; without a track or a pattern there are none. -/
def cellsAt (s : Song) (track : Option Track) (position : Nat) : Except Error (List Note) :=
  match track with
  | none => .ok []
  | some t =>
    match t.patternAt position with
    | none => .ok []
    | some index =>
      match t.patterns[index]? with
      | some pattern => .ok pattern.notes
      | none => .error (.missingPattern s.name t.channel.shortName index)

/-- Rows of a position that plays some cells. -/
def rowsOf (s : Song) (position : Nat) (cells : List Note) : List Row :=
  (cellRows (s.positionLength position) cells).toList.mapIdx fun row note =>
    { position, isFirst := row == 0, note }

/-- Bytes that a row takes in memory. -/
def rowBytes : Nat := 24

/-- Rows of a number of positions from a given one on, behind earlier rows in a list with some
room. -/
def rowsFrom (s : Song) (track : Option Track) : Nat → Nat → Nat → Array Row →
    Except Error (Array Row)
  | 0, _, _, done => .ok done
  | count + 1, position, room, done =>
    match Capacity.reserve rowBytes room (done.size + s.positionLength position) with
    | .error fault => .error (.fault fault)
    | .ok room =>
      match s.cellsAt track position with
      | .error e => .error e
      | .ok cells => rowsFrom s track count (position + 1) room (done ++ s.rowsOf position cells)

/-- Rows of a song as a track plays it, in order. -/
def rows (s : Song) (track : Option Track) : Except Error (List Row) :=
  (s.rowsFrom track s.length 0 0 #[]).map Array.toList

/-- The first speed that the tracks of a song set on each row. -/
def speeds (s : Song) (count : Nat) : Except Error (List (Option UInt8)) := do
  s.tracks.foldlM (fun speeds track => do
      let rows ← s.rows (some track)
      .ok (List.zipWith (fun speed row => speed <|> row.note.bind (·.speed)) speeds rows))
    (List.replicate count none)

end Song

end Chiptune
