import Chiptune.Stream.Join
import Chiptune.Stream.Sync

/-!
# Channel streams

`Stream.generate` turns one channel of one song into the tokens of its instruction stream. Where the
song loops, the stream carries a label at the loop row and ends with a jump to it; else it ends with
a halt.
-/

set_option autoImplicit false

namespace Chiptune.Stream

/-- Row before which the loop label stands, if the song loops. A loop point without rows moves to
the next position that has some, and one past the end to the start. -/
def loopRow (song : Song) (rows : List Row) (log : Log) : Option Nat × Log :=
  match song.loopPoint with
  | none => (none, log)
  | some point =>
    let name := song.name
    let isPast := decide (song.length ≤ point)
    let log := log.warnOnceIf isPast .clamped
      s!"Song '{name}': loop point {point} is past the end, looping to the start"
    let position := if isPast then 0 else point
    match rows.findIdx? fun row => decide (position ≤ row.position) && row.isFirst with
    | some index =>
      let target := (rows[index]?.map (·.position)).getD position
      (some index, log.warnOnceIf (target != position) .clamped
        s!"Song '{name}': loop point {position} has no rows, looping to position {target}")
    | none =>
      if rows.isEmpty then (none, log)
      else
        (some 0, log.warnOnce .clamped
          s!"Song '{name}': no rows at or after loop point {position}, looping to the start")

/-- Set the loop mark: what the song changes is unknown behind it. -/
def markLoop (job : Job) (rows : List Row) (speeds : List (Option UInt8)) (v : Voice) :
    Piece × Voice :=
  let label := Label.streamLoop job.songIndex job.channel.shortName
  let (id, tables) := v.tables.symbol (label.text job.stem)
  (.mark id, { v with tables, told := v.told.forget job.song rows speeds, lastPatchRow := none })

/-- Pieces of a row with the loop mark before it, if that is its place, and the state behind it. -/
def runRow (job : Job) (rows : List Row) (speeds : List (Option UInt8)) (loopAt : Option Nat)
    (index : Nat) (row : Row) (speed : Option UInt8) (rest : List Row) (v : Voice) :
    Except (Error × Voice) (List Piece × Voice) := do
  let (marks, v) :=
    if loopAt = some index then
      let (mark, v) := markLoop job rows speeds v
      ([mark], v)
    else ([], v)
  let (v, advances) ← v.processRow job index row speed rest
  .ok (marks ++ [.row v.row advances], { v with row := [] })

/-- Pieces of the rows from a given one on, behind earlier pieces in reverse order, and the state
behind them. -/
def runRows (job : Job) (rows : List Row) (speeds : List (Option UInt8)) (loopAt : Option Nat) :
    Nat → List Row → List (Option UInt8) → List Piece → Voice →
    Except (Error × Voice) (List Piece × Voice)
  | _, [], _, done, v => .ok (done.reverse, v)
  | index, row :: rest, later, done, v =>
    match runRow job rows speeds loopAt index row later.head?.join rest v with
    | .error stopped => .error stopped
    | .ok (pieces, v) =>
      runRows job rows speeds loopAt (index + 1) rest later.tail (pieces.reverse ++ done) v

/-- Last instruction of a stream. -/
def ending (job : Job) (loopAt : Option Nat) (v : Voice) : Voice :=
  match loopAt with
  | some _ => v.issueAt job .jump (.streamLoop job.songIndex job.channel.shortName)
  | none => v.issue job .halt []

/-- Tokens of a channel stream, and the shared tables behind it. -/
def generate (job : Job) (t : Tables) : Except Error (List Token) × Tables :=
  let track := job.song.track job.channel
  match (do
      let rows ← job.song.rows track
      let speeds ← job.song.speeds rows.length
      Except.ok (rows, speeds)) with
  | .error e => (.error e, t)
  | .ok (rows, speeds) =>
    let v := Voice.start job t
    let (loopAt, log) := loopRow job.song rows v.tables.log
    let v := v.logging fun _ => log
    match runRows job rows speeds loopAt 0 rows speeds [] v with
    | .error (e, v) => (.error e, v.tables)
    | .ok (pieces, v) =>
      let v := ending job loopAt v
      match Instruction.encodeAll job.kernel (join job.kernel {} pieces ++ v.row) with
      | .ok tokens => (.ok tokens, v.tables)
      | .error fault => (.error (.fault fault), v.tables)

end Chiptune.Stream
