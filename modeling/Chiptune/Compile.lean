import Chiptune.Image
import Chiptune.Layout
import Chiptune.Options
import Chiptune.Report
import Chiptune.Stream

/-!
# Compiling a project

`compile` turns a project into assembler source, its binary image and a report. All data is
generated first, with the shared tables filled in a fixed order: instruments, arpeggios, then song
by song and channel by channel. Then the streams are compressed, laid out and assembled.
-/

set_option autoImplicit false

namespace Chiptune

/-- Result of a compile. -/
structure Score where
  /-- Assembler source. -/
  text : String
  image : Image
  warnings : List Warning
  report : Report

namespace Compile

/-- Songs that the options select. -/
def selectedSongs (o : Options) (p : Project) : Except Error (List Nat) :=
  let songs := o.songs.getD (List.range p.songs.length)
  match songs.find? fun index => decide (p.songs.length ≤ index) with
  | some bad => .error (.invalidSong bad)
  | none => if songs.isEmpty then .error .noSongs else .ok songs

/-- Refuse expansion chips on a kernel without them. -/
def checkExpansions (kernel : Kernel) (p : Project) : Except Error Unit :=
  match p.expansions.toList with
  | chip :: _ =>
    if kernel.allowsExpansions then .ok ()
    else .error (.unsupportedExpansion kernel.name chip.name)
  | [] => .ok ()

/-- Refuse mappings of samples that do not exist. -/
def checkMappings (p : Project) : Except Error Unit :=
  match p.mappings.find? fun m => decide (p.samples.length ≤ m.sample) with
  | some m => .error (.missingSample m.sample)
  | none => .ok ()

/-- Whether a track has a cell that does something. -/
def hasNotes (t : Track) : Bool := t.patterns.any fun p => p.notes.any fun n => !n.isEmpty

/-- Check a track: cells on a channel of a disabled chip are an error, those on an unused N163
channel are dropped with a warning. -/
def checkTrack (p : Project) (song : Song) (log : Log) (t : Track) : Except Error Log :=
  if p.hasChannel t.channel || !hasNotes t then .ok log
  else
    let name := song.name
    let channel := t.channel.shortName
    let count := p.n163Channels
    let dropped := log.warn .unsupportedFeature
      s!"Song '{name}': channel {channel} is beyond the {count} active N163 channels, ignored"
    match t.channel.expansion with
    | some chip =>
      if p.uses chip then .ok dropped else .error (.expansionDisabled channel chip.name)
    | none => .ok dropped

/-- Records of the instruments that have a slot, with their curves and waves in the tables. -/
def addInstruments (kernel : Kernel) (slots : Slots) :
    Nat → List Instrument → Tables → WaveTables →
    Except Fault (List (Option InstrumentRecord) × Tables × WaveTables)
  | _, [], t, w => .ok ([], t, w)
  | index, i :: rest, t, w =>
    match slots.slot index with
    | none => do
      let (records, t, w) ← addInstruments kernel slots (index + 1) rest t w
      .ok (none :: records, t, w)
    | some _ => do
      let (curves, t) ← InstrumentCurves.add i kernel t
      let (waves, w, log) := w.add i t.log
      let (records, t, w) ← addInstruments kernel slots (index + 1) rest { t with log } w
      .ok (some { curves, waves } :: records, t, w)

/-- Curves of the arpeggios. -/
def addArpeggios (kernel : Kernel) : List Arpeggio → Tables → Except Fault (List Nat × Tables)
  | [], t => .ok ([], t)
  | a :: rest, t => do
    let (index, t) ← t.addEnvelope (some a.envelope) .arpeggio kernel
    let (indices, t) ← addArpeggios kernel rest t
    .ok (index :: indices, t)

/-- What a channel of a song is generated from. -/
def streamJob (o : Options) (p : Project) (slots : Slots) (arpeggios : List Nat) (index : Nat)
    (song : Song) (patches : Option PatchTimeline) (channel : Channel) : Stream.Job :=
  { project := p
    kernel := o.kernel
    machine := o.machine.getD p.machine
    stem := o.labelStem
    slots, arpeggios, songIndex := index, song, channel
    carriesTempo := p.channels.head? == some channel
    patches }

/-- Streams of some channels of a song. -/
def addChannels (job : Channel → Stream.Job) :
    List Channel → Tables → Except Error (List ChannelStream × Tables)
  | [], t => .ok ([], t)
  | channel :: rest, t => do
    let (result, t) := Stream.generate (job channel) t
    let tokens ← result
    let (streams, t) ← addChannels job rest t
    .ok (⟨channel, tokens⟩ :: streams, t)

/-- Patches that a song gives the VRC7, for a project that has one. -/
def songPatches (p : Project) (song : Song) (log : Log) :
    Except Error (Option PatchTimeline × Log) :=
  if p.uses .vrc7 then do
    let (timeline, log) ← PatchTimeline.build p song log
    .ok (some timeline, log)
  else .ok (none, log)

/-- Data of one song, with streams that are not compressed. -/
def addSong (o : Options) (p : Project) (slots : Slots) (arpeggios : List Nat) (index : Nat)
    (t : Tables) : Except Error (SongData × Tables) :=
  match p.songs[index]? with
  | none => .error (.fault .index)
  | some song => do
    let log ← song.tracks.foldlM (checkTrack p song) t.log
    let (patches, log) ← songPatches p song log
    let job := streamJob o p slots arpeggios index song patches
    let (streams, t) ← addChannels job p.channels { t with log }
    let (speed, groove, t) :=
      match p.tempoMode with
      | .speed => (song.speed, none, t)
      | .groove =>
        let (groove, t) := t.groove song.groove
        (0, some groove, t)
    .ok ({ index, name := song.name, speed, tempo := song.tempo, groove, streams }, t)

/-- Data of some songs. -/
def addSongs (o : Options) (p : Project) (slots : Slots) (arpeggios : List Nat) :
    List Nat → Tables → Except Error (List SongData × Tables)
  | [], t => .ok ([], t)
  | index :: rest, t => do
    let (song, t) ← addSong o p slots arpeggios index t
    let (songs, t) ← addSongs o p slots arpeggios rest t
    .ok (song :: songs, t)

/-- What is generated from a project, before its streams are compressed. -/
structure Generated where
  slots : Slots
  records : List (Option InstrumentRecord)
  waves : WaveTables
  tables : Tables
  songs : List SongData

/-- A step that has no errors but faults. -/
def faults {α : Type} (step : Except Fault α) : Except Error α := step.mapError .fault

/-- Generate the data of the selected songs and of everything that they share. -/
def generate (o : Options) (p : Project) : Except Error Generated := do
  checkExpansions o.kernel p
  let selected ← selectedSongs o p
  checkMappings p
  let (checked, log) := checkSamples p o.sampleBase {}
  checked
  let (slots, log) := Slots.assign p o.kernel log
  let (records, tables, waves) ← faults (addInstruments o.kernel slots 0 p.instruments { log } {})
  let (arpeggios, tables) ← faults (addArpeggios o.kernel p.arpeggios tables)
  let (songs, tables) ← addSongs o p slots arpeggios selected tables
  .ok { slots, records, waves, tables, songs }

/-- Compressed stream of a channel, with its sizes. -/
def packStream (kernel : Kernel) (compression : Compression) (s : ChannelStream) :
    ChannelStream × ChannelReport :=
  let (tokens, threshold) := compression.apply kernel s.tokens
  ({ s with tokens },
    { channel := s.channel
      rawBytes := byteSize s.tokens
      compressedBytes := byteSize tokens
      threshold
      references := Reference.count kernel tokens
      notes := noteCount s.tokens })

/-- A song with compressed streams, with its sizes. -/
def packSong (kernel : Kernel) (compression : Compression) (song : SongData) :
    SongData × SongReport :=
  let channels := song.streams.map (packStream kernel compression)
  ({ song with streams := channels.map Prod.fst },
    { index := song.index, name := song.name, channels := channels.map Prod.snd })

/-- Layout of some songs with all that they share. -/
def Generated.layout (g : Generated) (o : Options) (p : Project) (songs : List SongData) : Layout :=
  { project := p
    kernel := o.kernel
    machine := o.machine.getD p.machine
    stem := o.labelStem
    tables := g.tables
    waves := g.waves
    slots := g.slots
    records := g.records
    channels := p.channels
    dataBase := o.dataBase
    sampleBase := o.sampleBase
    songs }

/-- Number of entries and bytes of a table. -/
def tableSize (t : UniqueTable) : TableSize := ⟨t.size, t.totalBytes⟩

/-- Sizes of all tables. -/
def tableReport (l : Layout) : TableReport :=
  let mappings := min l.project.mappings.length noteWindow.toNat
  let records (indices : List Nat) (size : Nat) : TableSize :=
    ⟨indices.length, indices.length * size⟩
  { primaryInstruments := records l.slots.primary Layout.primaryRecordSize
    extendedInstruments := records l.slots.extended Layout.extendedRecordSize
    sampleMappings := ⟨mappings, mappings * Layout.sampleEntrySize⟩
    envelopes := tableSize l.tables.curves
    grooves := tableSize l.tables.grooves
    fdsWaves := tableSize l.waves.fdsWaves
    fdsModulations := tableSize l.waves.fdsMods
    n163Waves := tableSize l.waves.n163Waves
    samples :=
      ⟨l.project.samples.length,
        l.project.samples.foldr (fun s size => (paddedSample s.data).length + size) 0⟩ }

end Compile

open Compile in
/-- Compile a project. -/
def compile (o : Options) (p : Project) : Except Error Score := do
  let g ← generate o p
  let songs := g.songs.map (packSong o.kernel o.compression)
  let layout := g.layout o p (songs.map Prod.fst)
  let lines ← faults layout.lines
  let image ← Image.assemble lines o.dataBase
  let warnings := g.tables.log.warnings
  .ok { text := Listing.render o.dialect lines
        image
        warnings
        report :=
          { kernel := o.kernel.name
            songs := songs.map Prod.snd
            tables := tableReport layout
            musicBytes := image.music.length
            sampleBytes := image.samples.length
            warnings := warnings.length } }

end Chiptune
