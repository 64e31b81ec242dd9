import Chiptune.InstrumentRecord
import Chiptune.Listing
import Chiptune.SampleData
import Chiptune.Slots
import Chiptune.Token

/-!
# Layout of the compiled data

The music segment holds the header, the song records, the instrument tables, the sample table, the
curves, grooves and waves, and the channel streams. Samples follow in their own segment.
-/

set_option autoImplicit false

namespace Chiptune

/-- Stream of one channel. -/
structure ChannelStream where
  channel : Channel
  tokens : List Token

/-- Compiled song. -/
structure SongData where
  /-- Index of the song in the project. -/
  index : Nat
  name : String
  speed : UInt8
  tempo : UInt16
  /-- Groove of the song in groove tempo mode. -/
  groove : Option Nat
  streams : List ChannelStream

/-- Everything that is laid out. -/
structure Layout where
  project : Project
  kernel : Kernel
  machine : Machine
  stem : String
  tables : Tables
  waves : WaveTables
  slots : Slots
  /-- Record data of each instrument that has a slot. -/
  records : List (Option InstrumentRecord)
  channels : List Channel
  dataBase : UInt16
  sampleBase : UInt16
  songs : List SongData

namespace Layout

/-- Bytes of a record of the primary instrument table. -/
def primaryRecordSize : Nat := 10

/-- Bytes of a record of the extended instrument table. -/
def extendedRecordSize : Nat := 16

/-- Bytes of an entry of the sample table. -/
def sampleEntrySize : Nat := 4

/-- Line of a label. -/
def labelLine (l : Layout) (label : Label) : Line := .label (label.text l.stem)

/-- Word that holds the address of a label. -/
def labelWord (l : Layout) (label : Label) : Word := .label (label.text l.stem)

/-! ## Header and songs -/

/-- Header byte of a video region. -/
def machineByte : Machine → UInt8
  | .ntsc => 0
  | .pal => 1
  | .dual => 2

/-- Header byte of a tempo mode. -/
def tempoModeByte : TempoMode → UInt8
  | .speed => 0
  | .groove => 1

/-- Header byte for the number of N163 channels. -/
def n163Byte (l : Layout) : UInt8 :=
  if l.channels.any (·.n163Index.isSome) then UInt8.ofNat l.project.n163Channels else 0

/-- Lines of the header. -/
def header (l : Layout) : List Line :=
  [l.labelLine .header] ++
  Listing.bytes [UInt8.ofNat l.songs.length, l.project.expansions.mask, machineByte l.machine,
    l.n163Byte, UInt8.ofNat l.channels.length, tempoModeByte l.project.tempoMode] ++
  Listing.words [l.labelWord .instruments, l.labelWord .extendedInstruments,
    l.labelWord .sampleTable] ++
  Listing.words (l.songs.map fun song => l.labelWord (.song song.index))

/-- Lines of a song record. -/
def songRecord (l : Layout) (song : SongData) : List Line :=
  [.blank, .comment ("Song: " ++ song.name), l.labelLine (.song song.index)] ++
  Listing.words (song.streams.map fun s =>
    l.labelWord (.stream song.index s.channel.shortName)) ++
  [.bytes [song.speed],
    .words [match song.groove with
      | some groove => l.labelWord (.groove groove)
      | none => .value song.tempo]]

/-! ## Instruments -/

/-- Words of the curves that every record begins with. -/
def curveWords (l : Layout) (c : InstrumentCurves) : List Word :=
  [l.labelWord (.envelope c.volume), l.labelWord (.envelope c.arpeggio),
    l.labelWord (.envelope c.pitch)]

/-- Lines of a record of the primary table. -/
def primaryRecord (l : Layout) (i : Instrument) (r : InstrumentRecord) : List Line :=
  [.comment i.name] ++
  Listing.words (l.curveWords r.curves ++ [l.labelWord (.envelope r.curves.duty)]) ++
  Listing.bytes [r.curves.dutyInit, 0]

/-- Lines of a record of the extended table. -/
def extendedRecord (l : Layout) (i : Instrument) (r : InstrumentRecord) : List Line :=
  [.comment i.name] ++
  match i.kind, r.waves with
  | .vrc7 patch regs, _ =>
    Listing.words (l.curveWords r.curves) ++ Listing.bytes [patch, 0] ++ Listing.bytes regs.toList
  | .fds modSpeed modDepth modDelay, .fds wave modulation =>
    Listing.words (l.curveWords r.curves ++ [l.labelWord (.fdsWave wave)]) ++
    Listing.words [l.labelWord (.fdsMod modulation), .value modSpeed] ++
    Listing.bytes [modDepth, modDelay, 0, 0]
  | .n163 wavePos waveSize, .n163 wave =>
    Listing.words (l.curveWords r.curves ++ [l.labelWord (.n163Wave wave)]) ++
    Listing.bytes [wavePos, waveSize, 0, 0, 0, 0, 0, 0]
  | _, _ =>
    Listing.words (l.curveWords r.curves ++ [l.labelWord (.envelope r.curves.duty)]) ++
    Listing.bytes [r.curves.dutyInit, 0, 0, 0, 0, 0, 0, 0]

/-- Lines of the records of some instruments. -/
def recordLines (l : Layout) (record : Instrument → InstrumentRecord → List Line)
    (indices : List Nat) : Except Fault (List Line) := do
  let parts ← indices.mapM fun index =>
    match l.project.instruments[index]?, l.records[index]? with
    | some i, some (some r) => .ok (record i r)
    | some _, some none => .ok []
    | _, _ => .error Fault.index
  .ok parts.flatten

/-- Lines of both instrument tables. -/
def instrumentTables (l : Layout) : Except Fault (List Line) := do
  let primary ← l.recordLines l.primaryRecord l.slots.primary
  let extended ← l.recordLines l.extendedRecord l.slots.extended
  .ok ([.blank, l.labelLine .instruments] ++ primary ++
    [.blank, l.labelLine .extendedInstruments] ++ extended)

/-! ## Samples -/

/-- Entry of a mapping in the sample table: rate and loop flag, address, length. -/
def sampleEntry (registerOffset offset : Nat) (m : SampleMapping) (s : Sample) : List UInt8 :=
  let length := (paddedSample s.data).length
  let flags := (m.pitch &&& 0x0F) ||| if m.looping then 0x40 else 0
  [flags, UInt8.ofNat ((registerOffset + offset) / sampleAlignment),
    UInt8.ofNat ((length - 1) / 16), 0]

/-- Lines of the sample table. -/
def sampleTable (l : Layout) : Except Fault (List Line) := do
  let offsets := (sampleOffsets l.project).toArray
  let registerOffset := (l.sampleBase - sampleRegisterBase).toNat
  let parts ← (l.project.mappings.take noteWindow.toNat).mapM fun m =>
    match l.project.samples[m.sample]? with
    | none => .ok []
    | some s =>
      match offsets[m.sample]? with
      | none => .error Fault.index
      | some offset => .ok (Listing.bytes (sampleEntry registerOffset offset m s))
  .ok ([.blank, l.labelLine .sampleTable] ++ parts.flatten)

/-- Lines of the sample segment. -/
def samples (l : Layout) : List Line :=
  if l.project.samples.isEmpty then []
  else
    [.blank, .segment .samples l.sampleBase] ++
    l.project.samples.zipIdx.flatMap fun (s, index) =>
      [.align sampleAlignment, l.labelLine (.sample index)] ++
      Listing.bytes (paddedSample s.data)

/-! ## Tables -/

/-- Lines of a table whose entries have labels. -/
def entries (l : Layout) (label : Nat → Label) (table : UniqueTable) : List Line :=
  table.toList.zipIdx.flatMap fun (bytes, index) =>
    l.labelLine (label index) :: Listing.bytes bytes

/-- Lines of the curves, grooves and waves. -/
def curves (l : Layout) : List Line :=
  [.blank, .comment "Envelopes"] ++ l.entries .envelope l.tables.curves ++
  (if l.tables.grooves.size = 0 then []
    else [.blank, .comment "Grooves"] ++ l.entries .groove l.tables.grooves) ++
  l.entries .fdsWave l.waves.fdsWaves ++ l.entries .fdsMod l.waves.fdsMods ++
  l.entries .n163Wave l.waves.n163Waves

/-! ## Streams -/

/-- Targets of the references in a stream. -/
def targets (tokens : List Token) : List Nat :=
  tokens.filterMap fun
    | .address (.offset target) => some target.toNat
    | _ => none

/-- Lines of bytes that were collected in reverse order. -/
def flushBytes (reversed : List UInt8) : List Line := Listing.bytes reversed.reverse

/-- Lines of a stream from a token on; `reversed` are bytes that are not written yet. A token that a
reference names gets a label of its own. -/
def streamLines (l : Layout) (song : Nat) (channel : String) (targets : List Nat) :
    Nat → List UInt8 → List Token → Except Fault (List Line)
  | _, reversed, [] => .ok (flushBytes reversed)
  | offset, reversed, token :: rest => do
    let (lead, reversed) :=
      if targets.contains offset then
        (flushBytes reversed ++ [l.labelLine (.streamRef song channel offset)], [])
      else ([], reversed)
    match token with
    | .byte b | .opcode b | .note b =>
      let others ← streamLines l song channel targets (offset + 1) (b :: reversed) rest
      .ok (lead ++ others)
    | .label id =>
      match l.tables.symbols.name? id with
      | none => .error .index
      | some name =>
        let others ← streamLines l song channel targets (offset + 1) [] rest
        .ok (lead ++ flushBytes reversed ++ .label name :: others)
    | .address (.symbol id) =>
      match l.tables.symbols.name? id with
      | none => .error .index
      | some name =>
        let others ← streamLines l song channel targets (offset + 1) [] rest
        .ok (lead ++ flushBytes reversed ++ .words [.label name] :: others)
    | .address (.offset target) =>
      let others ← streamLines l song channel targets (offset + 1) [] rest
      .ok (lead ++ flushBytes reversed ++
        .words [l.labelWord (.streamRef song channel target.toNat)] :: others)

/-- Lines of a channel stream. -/
def stream (l : Layout) (song : Nat) (s : ChannelStream) : Except Fault (List Line) := do
  let channel := s.channel.shortName
  let lines ← l.streamLines song channel (targets s.tokens) 0 [] s.tokens
  .ok ([.blank, l.labelLine (.stream song channel)] ++ lines)

/-- Lines of all streams of a song. -/
def songStreams (l : Layout) (song : SongData) : Except Fault (List Line) := do
  let parts ← song.streams.mapM (l.stream song.index)
  .ok parts.flatten

/-- The whole listing. -/
def lines (l : Layout) : Except Fault (List Line) := do
  let instruments ← l.instrumentTables
  let mappings ← l.sampleTable
  let streams ← l.songs.mapM l.songStreams
  .ok ([.comment (l.project.name ++ " (" ++ l.kernel.name ++ " kernel)"),
      .segment .music l.dataBase] ++
    l.header ++ l.songs.flatMap l.songRecord ++ instruments ++ mappings ++ l.curves ++
    streams.flatten ++ l.samples)

end Layout

end Chiptune
