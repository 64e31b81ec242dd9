import Chiptune.Proofs.Resolution

/-!
# What the sizes of a report add up to

The report of a compile is computed from the tables and the streams, and its totals are the lengths
of the assembled segments. Every item of the music is a part of the header, of a song record, of an
entry of a table or of a stream, and the samples are their padded data and the gaps that align them.

* `Layout.sizeOf_items`: the size of the music, part by part.
* `length_sampleBytesFrom`: the size of the samples, and where the last one ends.
* `Compile.compile_accounts`: **the report accounts for every byte**.
-/

set_option autoImplicit false

namespace Chiptune

/-! ## Sizes of items -/

namespace Image

theorem sizeOf_flatMap {α : Type} (f : α → List Item) (xs : List α) :
    sizeOf (xs.flatMap f) = (xs.map fun x => sizeOf (f x)).sum := by
  induction xs with
  | nil => rfl
  | cons x xs ih => rw [List.flatMap_cons, sizeOf_append, ih, List.map_cons, List.sum_cons]

/-- Parts that have one size. -/
theorem sizeOf_flatMap_of_forall {α : Type} {f : α → List Item} {xs : List α} {n : Nat}
    (h : ∀ x ∈ xs, sizeOf (f x) = n) : sizeOf (xs.flatMap f) = xs.length * n := by
  rw [sizeOf_flatMap, List.map_congr_left h, List.map_const', List.sum_replicate_nat]

end Image

/-- Bytes of the tables that are in the music: all but the samples. -/
def TableReport.musicBytes (t : TableReport) : Nat :=
  t.primaryInstruments.bytes + t.extendedInstruments.bytes + t.sampleMappings.bytes +
    t.envelopes.bytes + t.grooves.bytes + t.fdsWaves.bytes + t.fdsModulations.bytes +
    t.n163Waves.bytes

namespace Layout

variable (l : Layout)

theorem sizeOf_headerItems : Image.sizeOf l.headerItems = 12 := rfl

theorem sizeOf_recordItems (song : SongData) :
    Image.sizeOf (l.recordItems song) = 2 * song.streams.length + 3 := by
  rw [recordItems, Image.sizeOf_cons, Image.sizeOf_append, Image.sizeOf_words]
  exact Nat.zero_add _

theorem sizeOf_songItems (song : SongData) :
    Image.sizeOf (l.songItems song) = (song.streams.map fun s => byteSize s.tokens).sum := by
  simp only [songItems, Image.sizeOf_flatMap, sizeOf_streamItems]

theorem sizeOf_entryItems (label : Nat → Label) (n : Nat) (entries : List (List UInt8)) :
    Image.sizeOf (l.entryItems label n entries) = entries.foldr (·.length + ·) 0 := by
  induction entries generalizing n with
  | nil => rfl
  | cons bytes rest ih =>
    rw [entryItems, Image.sizeOf_cons, Image.sizeOf_append, Image.sizeOf_bytes, ih, List.foldr_cons]
    exact Nat.zero_add _

/-- The bytes of the entries of some tables. -/
theorem sizeOf_curveItems (tables : List ((Nat → Label) × UniqueTable)) :
    Image.sizeOf (l.curveItems tables) = (tables.map fun t => t.2.totalBytes).sum := by
  simp only [curveItems, Image.sizeOf_flatMap, sizeOf_entryItems]
  rfl

variable {l}

/-- The bytes of an instrument table. -/
theorem Supplied.sizeOf_records (h : l.Supplied) (t : InstrumentTable) :
    Image.sizeOf ((l.slots.table t).flatMap (l.instrumentItems (l.recordOf t))) =
      (l.slots.table t).length * recordSize t := by
  refine Image.sizeOf_flatMap_of_forall fun n hn => ?_
  obtain ⟨i, r, hi, hr, -⟩ := h.records t n hn
  rw [instrumentItems_eq hi hr, size_record]

/-- Every mapping has an entry if its sample exists. -/
theorem sizeOf_mappingItems {ms : List SampleMapping}
    (h : ∀ m ∈ ms, ∃ s, l.project.samples[m.sample]? = some s) :
    Image.sizeOf (ms.flatMap l.mappingItems) = ms.length * sampleEntrySize := by
  refine Image.sizeOf_flatMap_of_forall fun m hm => ?_
  obtain ⟨s, hs⟩ := h m hm
  obtain ⟨offset, hoffset⟩ := exists_sampleOffset hs
  rw [mappingItems, hs, hoffset, Image.sizeOf_bytes]
  rfl

/-- **The size of the tables is the one that is reported**, if every mapping has its sample. -/
theorem Supplied.sizeOf_tableItems (h : l.Supplied)
    (hsamples : ∀ m ∈ l.project.mappings, ∃ s, l.project.samples[m.sample]? = some s) :
    Image.sizeOf l.tableItems = (Compile.tableReport l).musicBytes := by
  have hprimary : Image.sizeOf (l.slots.primary.flatMap (l.instrumentItems l.primaryRecord)) =
      l.slots.primary.length * primaryRecordSize := h.sizeOf_records .primary
  have hextended : Image.sizeOf (l.slots.extended.flatMap (l.instrumentItems l.extendedRecord)) =
      l.slots.extended.length * extendedRecordSize := h.sizeOf_records .extended
  have hmappings : Image.sizeOf
      ((l.project.mappings.take noteWindow.toNat).flatMap l.mappingItems) =
      min l.project.mappings.length noteWindow.toNat * sampleEntrySize := by
    rw [sizeOf_mappingItems fun m hm => hsamples m (List.mem_of_mem_take hm), List.length_take,
      Nat.min_comm]
  simp only [tableItems, Image.sizeOf_cons, Image.sizeOf_append, Item.size, hprimary, hextended,
    hmappings, sizeOf_curveItems, entryTables, List.map_cons, List.map_nil, List.sum_cons,
    List.sum_nil, TableReport.musicBytes, Compile.tableReport, Compile.tableSize]
  omega

/-- **The size of the music**, part by part: the header with a word for each song, the records of
the songs, the tables and the streams. -/
theorem sizeOf_items (tables : List Item) :
    Image.sizeOf (l.items tables) = 12 + 2 * l.songs.length +
      (l.songs.map fun song => 2 * song.streams.length + 3).sum + Image.sizeOf tables +
      (l.songs.map fun song => (song.streams.map fun s => byteSize s.tokens).sum).sum := by
  simp only [items, Image.sizeOf_append, Image.sizeOf_words, Image.sizeOf_flatMap,
    sizeOf_recordItems, sizeOf_songItems, sizeOf_headerItems]
  omega

end Layout

/-! ## Sizes of the samples -/

/-- Bytes that are left free before each of some samples, which are laid out from an offset on. -/
def sampleGapsFrom (offset : Nat) : List Sample → List Nat
  | [] => []
  | s :: rest =>
    (alignSample offset - offset) ::
      sampleGapsFrom (alignSample offset + (paddedSample s.data).length) rest

/-- A gap only leads to the next multiple of the alignment. -/
theorem lt_of_mem_sampleGapsFrom {offset gap : Nat} {samples : List Sample}
    (h : gap ∈ sampleGapsFrom offset samples) : gap < sampleAlignment := by
  induction samples generalizing offset with
  | nil => cases h
  | cons s rest ih =>
    rcases List.mem_cons.1 h with rfl | h
    · rw [alignSample, sampleAlignment]
      omega
    · exact ih h

/-- **The samples take their padded data and the gaps between them.** -/
theorem length_sampleBytesFrom (offset : Nat) (samples : List Sample) :
    (sampleBytesFrom offset samples).length =
      samples.foldr (fun s size => (paddedSample s.data).length + size) 0 +
        (sampleGapsFrom offset samples).sum := by
  induction samples generalizing offset with
  | nil => rfl
  | cons s rest ih =>
    rw [sampleBytesFrom, List.length_append, List.length_append, List.length_replicate, ih,
      List.foldr_cons, sampleGapsFrom, List.sum_cons]
    omega

/-- **Nothing stands behind the last sample.** -/
theorem end_sampleBytesFrom {offset : Nat} {samples : List Sample} {s : Sample}
    (hs : samples.getLast? = some s) :
    ∃ start, (sampleOffsetsFrom offset samples).getLast? = some start ∧
      offset + (sampleBytesFrom offset samples).length = start + (paddedSample s.data).length := by
  induction samples generalizing offset with
  | nil => cases hs
  | cons first rest ih =>
    have hle := le_alignSample offset
    rw [sampleBytesFrom, sampleOffsetsFrom]
    simp only [List.length_append, List.length_replicate]
    cases rest with
    | nil =>
      rw [List.getLast?_singleton] at hs
      obtain rfl := Option.some.inj hs
      refine ⟨alignSample offset, rfl, ?_⟩
      rw [sampleBytesFrom, List.length_nil]
      omega
    | cons second rest =>
      rw [List.getLast?_cons_cons] at hs
      obtain ⟨start, hstart, hend⟩ :=
        @ih (alignSample offset + (paddedSample first.data).length) hs
      rw [sampleOffsetsFrom] at hstart ⊢
      refine ⟨start, by rw [List.getLast?_cons_cons, hstart], ?_⟩
      omega

/-! ## The report of a compile -/

/-- **The totals of a report of some songs add up**: the music is its header, the records of the
songs, the entries of the tables and the streams, the samples are their padded data and the gaps
that align them. -/
structure Report.AddsUp (r : Report) (p : Project) (selected : List Nat) : Prop where
  songs : r.songs.map (·.index) = selected
  channels : ∀ song ∈ r.songs, song.channels.map (·.channel) = p.channels
  music : r.musicBytes = 12 + 2 * selected.length +
    selected.length * (2 * p.channels.length + 3) + r.tables.musicBytes +
    (r.songs.map SongReport.compressedBytes).sum
  noSamples : p.samples = [] → r.sampleBytes = 0
  lastSample : ∀ s, p.samples.getLast? = some s → ∃ start, (sampleOffsets p).getLast? = some start ∧
    r.sampleBytes = start + (paddedSample s.data).length
  samples : r.sampleBytes = r.tables.samples.bytes + (sampleGapsFrom 0 p.samples).sum
  gaps : ∀ gap ∈ sampleGapsFrom 0 p.samples, gap < sampleAlignment

namespace Compile

variable {o : Options} {p : Project}

/-- The samples start at a multiple of the alignment, if there are any. -/
theorem generate_aligned {g : Generated} (h : generate o p = .ok g) (hne : p.samples ≠ []) :
    o.sampleBase.toNat % sampleAlignment = 0 := by
  have hs : p.samples[0]? = some (p.samples.head hne) := by
    rw [← List.head?_eq_getElem?, List.head?_eq_some_head]
  obtain ⟨start, hstart⟩ := exists_sampleOffset hs
  exact (checkSamples_ok (generate_checked h).2 hs hstart).2.1

/-- A packed song has a stream for each channel of the project. -/
theorem length_packed {song : SongData} (h : song.streams.map (·.channel) = p.channels) :
    (packed o song).streams.length = p.channels.length := by
  rw [← h]
  simp [packed, packSong]

theorem compressedBytes_packSong (o : Options) (song : SongData) :
    (packSong o.kernel o.compression song).2.compressedBytes =
      ((packed o song).streams.map fun s => byteSize s.tokens).sum := by
  simp only [SongReport.compressedBytes, packed, packSong, List.sum, List.foldr_map]
  rfl

/-- **The size of the music of a compile**: what is reported of the tables and the streams, and a
header and records of fixed sizes. -/
theorem length_music {g : Generated} {lines : List Line} {image : Image}
    (hg : generate o p = .ok g) (hlines : (packedLayout o p g).lines = .ok lines)
    (himage : Image.assemble lines o.dataBase = .ok image) :
    image.music.length = 12 + 2 * g.songs.length + g.songs.length * (2 * p.channels.length + 3) +
      (tableReport (packedLayout o p g)).musicBytes +
      (g.songs.map fun song => (packSong o.kernel o.compression song).2.compressedBytes).sum := by
  obtain ⟨-, arpeggios, t, -, hall⟩ := generate_ok hg
  obtain ⟨tables, hassembled⟩ := Layout.assembled _ hlines himage
  have hmappings : ∀ m ∈ p.mappings, ∃ s, p.samples[m.sample]? = some s :=
    fun m hm => exists_sample (generate_checked hg).1 hm
  have hsongs : (packedLayout o p g).songs = g.songs.map (packed o) := rfl
  have hrecords : ((packedLayout o p g).songs.map fun song => 2 * song.streams.length + 3).sum =
      g.songs.length * (2 * p.channels.length + 3) := by
    rw [hsongs, List.map_map, List.map_congr_left fun song hsong => by
      rw [Function.comp_apply, length_packed (hall song hsong).channels], List.map_const',
      List.sum_replicate_nat]
  have hstreams : ((packedLayout o p g).songs.map fun song =>
      (song.streams.map fun s => byteSize s.tokens).sum).sum =
      (g.songs.map fun song => (packSong o.kernel o.compression song).2.compressedBytes).sum := by
    rw [hsongs, List.map_map]
    exact congrArg List.sum (List.map_congr_left fun song _ =>
      (compressedBytes_packSong o song).symm)
  rw [hassembled.holds.music, Image.length_bytesOf, hassembled.listed.eq, Layout.sizeOf_items,
    hrecords, hstreams, (generate_supplied hg).sizeOf_tableItems hmappings, hsongs, List.length_map]

/-- **The report accounts for every byte**: its totals are the lengths of both segments, and they
are the sums of what it reports of the songs, the tables and the samples. -/
theorem compile_accounts {score : Score} (h : compile o p = .ok score) :
    ∃ selected, selectedSongs o p = .ok selected ∧
      score.report.musicBytes = score.image.music.length ∧
      score.report.sampleBytes = score.image.samples.length ∧
      score.report.AddsUp p selected := by
  obtain ⟨g, lines, hg, hlines, himage, -, -, hreport⟩ := compile_score h
  obtain ⟨hselected, arpeggios, t, -, hall⟩ := generate_ok hg
  have hsamples : score.image.samples = sampleBytesFrom 0 p.samples :=
    Layout.samples_eq hlines himage (generate_aligned hg)
  refine ⟨_, hselected, by rw [hreport]; rfl, by rw [hreport]; rfl, ?_⟩
  rw [hreport]
  constructor
  case songs => rw [reportOf, List.map_map]; rfl
  case channels =>
    intro song hsong
    obtain ⟨data, hdata, rfl⟩ := List.mem_map.1 hsong
    rw [← (hall data hdata).channels]
    simp [packSong, packStream]
  case music =>
    rw [List.length_map, reportOf, length_music hg hlines himage, List.map_map]
    rfl
  case noSamples =>
    intro hnone
    rw [reportOf, hsamples, hnone]
    rfl
  case lastSample =>
    intro s hs
    obtain ⟨start, hstart, hend⟩ := @end_sampleBytesFrom 0 _ _ hs
    exact ⟨start, hstart, by rw [reportOf, hsamples, ← hend, Nat.zero_add]⟩
  case samples =>
    rw [reportOf, hsamples, length_sampleBytesFrom]
    rfl
  case gaps => exact fun gap hgap => lt_of_mem_sampleGapsFrom hgap

/-- The drum tune is one song on five channels, and has two samples of 17 bytes with a gap of 47
bytes between them. -/
theorem compile_accounts_drumTune : ∃ score, compile {} drumTune = .ok score ∧
    score.report.musicBytes = score.image.music.length ∧
    score.report.musicBytes = 12 + 2 * 1 + 1 * (2 * 5 + 3) + score.report.tables.musicBytes +
      (score.report.songs.map SongReport.compressedBytes).sum ∧
    score.report.sampleBytes = 64 + 17 ∧
    score.report.sampleBytes = score.report.tables.samples.bytes + (0 + 47) := by
  obtain ⟨g, hg, hassembles⟩ := generate_drumTune
  obtain ⟨score, hscore⟩ := compile_succeeds hg hassembles
  obtain ⟨selected, hselected, hmusic, -, hsums⟩ := compile_accounts hscore
  obtain rfl : [0] = selected := Except.ok.inj hselected
  obtain ⟨start, hstart, hend⟩ := hsums.lastSample { name := "snare", data := [4, 5] } rfl
  obtain rfl : 64 = start := Option.some.inj hstart
  exact ⟨score, hscore, hmusic, hsums.music, hend, hsums.samples⟩

end Compile

end Chiptune
