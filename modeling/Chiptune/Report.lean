import Chiptune.Channel
import Chiptune.Json

/-!
# Size reports

A report tells how many bytes each stream and each table takes, and what compression saved.
-/

set_option autoImplicit false

namespace Chiptune

/-- Sizes of one channel stream. -/
structure ChannelReport where
  channel : Channel
  /-- Size before compression. -/
  rawBytes : Nat
  compressedBytes : Nat
  /-- Least notes of a reference, 0 when compression is off. -/
  threshold : Nat
  references : Nat
  /-- Instructions that take up rows, before compression. -/
  notes : Nat
  deriving DecidableEq

/-- Sizes of one song. -/
structure SongReport where
  index : Nat
  name : String
  channels : List ChannelReport
  deriving DecidableEq

namespace SongReport

def rawBytes (r : SongReport) : Nat := r.channels.foldr (·.rawBytes + ·) 0

def compressedBytes (r : SongReport) : Nat := r.channels.foldr (·.compressedBytes + ·) 0

end SongReport

/-- Number of entries and bytes of a table. -/
structure TableSize where
  entries : Nat := 0
  bytes : Nat := 0
  deriving DecidableEq

/-- Sizes of the shared tables. -/
structure TableReport where
  primaryInstruments : TableSize := {}
  extendedInstruments : TableSize := {}
  sampleMappings : TableSize := {}
  envelopes : TableSize := {}
  grooves : TableSize := {}
  fdsWaves : TableSize := {}
  fdsModulations : TableSize := {}
  n163Waves : TableSize := {}
  samples : TableSize := {}
  deriving DecidableEq

/-- Sizes of a compile. -/
structure Report where
  kernel : String
  songs : List SongReport
  tables : TableReport := {}
  musicBytes : Nat
  sampleBytes : Nat
  /-- Number of warnings. -/
  warnings : Nat
  deriving DecidableEq

namespace Report

/-- Bytes that compression saved over all songs. -/
def savedBytes (r : Report) : Nat :=
  r.songs.foldr (fun s saved => (s.rawBytes - s.compressedBytes) + saved) 0

def channelJson (c : ChannelReport) : Json :=
  .object [("channel", .string c.channel.key), ("raw_bytes", .nat c.rawBytes),
    ("compressed_bytes", .nat c.compressedBytes), ("threshold", .nat c.threshold),
    ("references", .nat c.references), ("notes", .nat c.notes)]

def songJson (s : SongReport) : Json :=
  .object [("index", .nat s.index), ("name", .string s.name),
    ("channels", .ofList channelJson s.channels)]

def sizeJson (t : TableSize) : Json :=
  .object [("entries", .nat t.entries), ("bytes", .nat t.bytes)]

def tablesJson (t : TableReport) : Json :=
  .object [("primary_instruments", sizeJson t.primaryInstruments),
    ("extended_instruments", sizeJson t.extendedInstruments),
    ("sample_mappings", sizeJson t.sampleMappings), ("envelopes", sizeJson t.envelopes),
    ("grooves", sizeJson t.grooves), ("fds_waves", sizeJson t.fdsWaves),
    ("fds_modulations", sizeJson t.fdsModulations), ("n163_waves", sizeJson t.n163Waves),
    ("samples", sizeJson t.samples)]

/-- JSON value of a report. -/
def json (r : Report) : Json :=
  .object [("kernel", .string r.kernel), ("songs", .ofList songJson r.songs),
    ("tables", tablesJson r.tables), ("music_bytes", .nat r.musicBytes),
    ("sample_bytes", .nat r.sampleBytes), ("warnings", .nat r.warnings)]

/-- JSON text of a report. -/
def toJson (r : Report) : String := r.json.pretty

end Report

end Chiptune
