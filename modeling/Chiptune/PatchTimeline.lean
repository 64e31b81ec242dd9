import Chiptune.Project
import Chiptune.Timeline
import Chiptune.Warning

/-!
# Loads of the shared FM patch

The six FM channels share the registers of one custom patch, so that a channel whose custom
instrument was replaced by another channel must load it again. A `PatchTimeline` lists the custom
instruments that the channels play on each row.
-/

set_option autoImplicit false

namespace Chiptune

/-- Custom instruments that are loaded on each row, in canonical channel order. -/
structure PatchTimeline where
  loads : Array (List Nat) := #[]
  deriving DecidableEq

namespace PatchTimeline

/-- Custom instrument that each row of a channel loads, given the current instrument before it. -/
def channelLoads (p : Project) (current : Option Nat) : List Row → List (Option Nat)
  | [] => []
  | row :: rest =>
    match row.note with
    | none => none :: channelLoads p current rest
    | some note =>
      let current := note.instrument <|> current
      let isCustom := (current.bind (p.instruments[·]?)).any (·.kind.isVrc7Custom)
      let isPitched := match note.value with
        | some (.pitch _) => true
        | _ => false
      (if isCustom && isPitched then current else none) :: channelLoads p current rest

/-- Loads of every row of a song on the channels of a project. -/
def loadsOf (p : Project) (song : Song) : Except Error (List (List Nat)) :=
  (p.channels.filter Channel.isVrc7).foldlM (fun loads channel => do
      let rows ← song.rows (song.track channel)
      let added := (channelLoads p none rows).map Option.toList
      .ok (if loads.isEmpty then added else List.zipWith (· ++ ·) loads added))
    []

/-- Whether neighbours in a list differ. -/
def disagree : List Nat → Bool
  | a :: b :: rest => a != b || disagree (b :: rest)
  | _ => false

/-- Timeline of a song, with a warning for each row on which channels load different patches. -/
def build (p : Project) (song : Song) (log : Log) : Except Error (PatchTimeline × Log) := do
  let loads ← loadsOf p song
  let log := loads.zipIdx.foldl (fun log (loads, row) =>
    log.warnIf (disagree loads) .ambiguousSharing
      s!"Song '{song.name}': VRC7 channels use different custom patches on row {row}") log
  .ok (⟨loads.toArray⟩, log)

/-- Last load on the latest row from `start` on and before `stop` that has one. -/
def lastLoad (t : PatchTimeline) (start : Nat) : Nat → Option Nat
  | 0 => none
  | stop + 1 =>
    if stop < start then none
    else match (t.loads.getD stop []).getLast? with
      | some instrument => some instrument
      | none => t.lastLoad start stop

/-- Whether the most recent load after row `since` and before a row was another instrument. -/
def overwritten (t : PatchTimeline) (instrument : Nat) (since : Option Nat) (row : Nat) : Bool :=
  let start := match since with
    | some s => s + 1
    | none => 0
  (t.lastLoad start (min row t.loads.size)).any (· != instrument)

end PatchTimeline

end Chiptune
