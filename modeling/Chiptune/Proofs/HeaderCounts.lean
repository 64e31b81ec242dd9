import Chiptune.Proofs.Accounting

/-!
# Counts in the header

The header counts the songs and the channels in bytes. Behind it stand the pointers to the songs,
and then the records of the songs with their pointers to the streams (`Image.HasIndex`). The number
of channels always fits its byte; the number of songs is cut to a byte, and so is the number of N163
channels of the project, which may exceed the eight of the chip.

* `Project.n163Count_eq`: how many N163 channels a project has.
* `Compile.compile_counts`: **which counts are right**.
-/

set_option autoImplicit false

namespace Chiptune

/-! ## Channels of a project -/

theorem countP_range_lt (n k : Nat) : (List.range k).countP (· < n) = min k n := by
  induction k with
  | zero => simp
  | succ k ih =>
    rw [List.range_succ, List.countP_append, ih, List.countP_singleton]
    simp only [decide_eq_true_eq]
    split <;> omega

namespace Project

/-- Number of N163 channels of a project. -/
def n163Count (p : Project) : Nat := p.channels.countP (·.n163Index.isSome)

/-- A project that uses the chip has as many of its channels as it asks for and the chip has. -/
theorem n163Count_eq (p : Project) :
    p.n163Count = if p.uses .n163 then min 8 p.n163Channels else 0 := by
  have hindices : Channel.all.filterMap Channel.n163Index = List.range 8 := by decide
  have hpresent : ∀ c : Channel, (c.n163Index.isSome && p.hasChannel c) =
      (c.n163Index.map fun index => p.uses .n163 && decide (index < p.n163Channels)).getD
        false := by
    intro c
    cases c <;> rfl
  have hcount : p.n163Count =
      (List.range 8).countP fun index => p.uses .n163 && decide (index < p.n163Channels) := by
    rw [n163Count, channels, List.countP_filter, ← hindices, List.countP_filterMap]
    exact List.countP_congr fun c _ => by rw [hpresent]
  rw [hcount]
  split
  · rename_i huses
    simp only [huses, Bool.true_and, countP_range_lt]
  · rename_i huses
    simp [huses]

theorem length_channels (p : Project) : p.channels.length < 256 :=
  Nat.lt_of_le_of_lt (List.length_filter_le _ _) (by decide)

end Project

/-! ## What the header leads to -/

namespace Image

variable (image : Image) (stem : String)

/-- The word of a label: its address, low byte first. -/
def pointer (label : Label) : List UInt8 := wordBytes ((image.address (label.text stem)).getD 0)

/-- Bytes are the record of a song: a pointer to the stream of each channel, and three bytes for the
speed and the tempo or groove. -/
def IsSongRecord (channels : List Channel) (song : Nat) (bytes : List UInt8) : Prop :=
  ∃ tail, tail.length = 3 ∧
    bytes = channels.flatMap (fun c => image.pointer stem (.stream song c.shortName)) ++ tail

/-- **The music begins with a header of twelve bytes, a pointer to each song and a record for each
song**, and what they point at is defined. -/
structure HasIndex (channels : List Channel) (selected : List Nat) : Prop where
  music : ∃ header records back, header.length = 12 ∧
    image.music = header ++ (selected.flatMap (fun song => image.pointer stem (.song song)) ++
      (records.flatten ++ back)) ∧
    List.Forall₂ (image.IsSongRecord stem channels) selected records
  songs : ∀ song ∈ selected, (image.address ((Label.song song).text stem)).isSome = true
  streams : ∀ song ∈ selected, ∀ c ∈ channels,
    (image.address ((Label.stream song c.shortName).text stem)).isSome = true

theorem bytesOf_labelWords {α : Type} (label : α → Label) (xs : List α) :
    bytesOf image.address (xs.map fun x => .word (.label ((label x).text stem))) =
      xs.flatMap fun x => image.pointer stem (label x) := by
  rw [bytesOf, List.flatMap_map]
  rfl

end Image

namespace Layout

variable {l : Layout} {tables : List Item} {image : Image}

/-- **The counts of the header**, as the bytes that hold them. -/
theorem Assembled.counts (h : l.Assembled tables image) :
    image.music[0]? = some (UInt8.ofNat l.songs.length) ∧ image.music[3]? = some l.n163Byte ∧
      image.music[4]? = some (UInt8.ofNat l.channels.length) := by
  rw [h.holds.music, items, Image.bytesOf_append]
  exact ⟨rfl, rfl, rfl⟩

/-- A song record points at the streams of the song. -/
theorem isSongRecord_recordItems (image : Image) {song : SongData} {channels : List Channel}
    (h : song.streams.map (·.channel) = channels) :
    image.IsSongRecord l.stem channels song.index
      (Image.bytesOf image.address (l.recordItems song)) := by
  subst h
  have hpointers := image.bytesOf_labelWords l.stem
    (fun s : ChannelStream => .stream song.index s.channel.shortName) song.streams
  obtain ⟨tempo, hitems⟩ : ∃ tempo, l.recordItems song =
      .label ((Label.song song.index).text l.stem) ::
        (song.streams.map (fun s => .word (l.labelWord (.stream song.index s.channel.shortName))) ++
          [.byte song.speed, .word tempo]) := ⟨_, rfl⟩
  refine ⟨Image.bytesOf image.address [.byte song.speed, .word tempo], by simp [Item.size], ?_⟩
  rw [hitems, Image.bytesOf_cons, Image.bytesOf_append, List.flatMap_map]
  exact congrArg (· ++ _) hpointers

/-- **The header of a layout leads to its songs and their streams.** -/
theorem Assembled.hasIndex (h : l.Assembled tables image) {channels : List Channel}
    (hchannels : ∀ song ∈ l.songs, song.streams.map (·.channel) = channels) :
    image.HasIndex l.stem channels (l.songs.map (·.index)) := by
  have hmem : ∀ name, .word (.label name) ∈ (l.songs.map fun song =>
      Item.word (l.labelWord (.song song.index))) ++ l.songs.flatMap l.recordItems →
      (image.address name).isSome = true := by
    intro name hname
    refine h.holds.resolved name ?_
    rw [items, ← List.append_assoc (l.songs.map _)]
    exact List.mem_append_right _ (List.mem_append_left _ hname)
  constructor
  case music =>
    refine ⟨Image.bytesOf image.address l.headerItems,
      l.songs.map fun song => Image.bytesOf image.address (l.recordItems song),
      Image.bytesOf image.address (tables ++ l.songs.flatMap l.songItems), ?_, ?_, ?_⟩
    · rw [Image.length_bytesOf, sizeOf_headerItems]
    · have hpointers := image.bytesOf_labelWords l.stem (fun song : SongData => .song song.index)
        l.songs
      have hrecords : Image.bytesOf image.address (l.songs.flatMap l.recordItems) =
          (l.songs.map fun song => Image.bytesOf image.address (l.recordItems song)).flatten := by
        rw [Image.bytesOf, List.flatMap_assoc, ← List.flatMap_def]
        rfl
      rw [h.holds.music, items, Image.bytesOf_append, Image.bytesOf_append,
        Image.bytesOf_append image.address (l.songs.flatMap l.recordItems), hrecords,
        List.flatMap_map]
      exact congrArg (_ ++ ·) (congrArg (· ++ _) hpointers)
    · rw [List.forall₂_map_left_iff, List.forall₂_map_right_iff, List.forall₂_same]
      exact fun song hsong => isSongRecord_recordItems image (hchannels song hsong)
  case songs =>
    intro index hindex
    obtain ⟨song, hsong, rfl⟩ := List.mem_map.1 hindex
    exact hmem _ (List.mem_append_left _ (List.mem_map.2 ⟨song, hsong, rfl⟩))
  case streams =>
    intro index hindex c hc
    obtain ⟨song, hsong, rfl⟩ := List.mem_map.1 hindex
    rw [← hchannels song hsong] at hc
    obtain ⟨s, hs, rfl⟩ := List.mem_map.1 hc
    refine hmem _ (List.mem_append_right _ (List.mem_flatMap.2 ⟨song, hsong, ?_⟩))
    exact List.mem_cons_of_mem _ (List.mem_append_left _ (List.mem_map.2 ⟨s, hs, rfl⟩))

/-- The byte for the N163 channels is the number that the project asks for, cut to a byte. -/
theorem toNat_n163Byte (h : l.channels = l.project.channels) :
    l.n163Byte.toNat = if l.project.uses .n163 then l.project.n163Channels % 256 else 0 := by
  have hany : l.channels.any (·.n163Index.isSome) = true ↔ 0 < l.project.n163Count := by
    rw [h, Project.n163Count, List.countP_pos_iff, List.any_eq_true]
  rw [Project.n163Count_eq] at hany
  unfold n163Byte
  split at hany
  · rename_i huses
    rw [if_pos huses]
    split
    · exact UInt8.toNat_ofNat
    · rename_i hnone
      rw [hany] at hnone
      have hzero : l.project.n163Channels = 0 := by omega
      rw [hzero]
      rfl
  · rename_i huses
    rw [if_neg huses, if_neg (by rw [hany]; exact Nat.lt_irrefl 0)]
    rfl

end Layout

/-- **What the counts of a header say** of a number of songs and of the channels of a project. The
number of channels is right. That of the songs is if it fits a byte, and that of the N163 channels
if the project asks for no more of them than the chip has, or for a number with the same low byte.
-/
structure Image.Counts (image : Image) (p : Project) (songs : Nat) : Prop where
  songs : ∃ count, image.music[0]? = some count ∧ count.toNat = songs % 256 ∧
    (count.toNat = songs ↔ songs < 256)
  channels : ∃ count, image.music[4]? = some count ∧ count.toNat = p.channels.length
  n163 : ∃ count, image.music[3]? = some count ∧
    count.toNat = (if p.uses .n163 then p.n163Channels % 256 else 0) ∧
    (count.toNat = p.n163Count ↔
      p.uses .n163 = false ∨ p.n163Channels ≤ 8 ∨ p.n163Channels % 256 = 8)

theorem Layout.Assembled.counts_ok {l : Layout} {tables : List Item} {image : Image}
    (h : l.Assembled tables image) (hchannels : l.channels = l.project.channels) :
    image.Counts l.project l.songs.length := by
  obtain ⟨hsongs, hn163, hcount⟩ := h.counts
  constructor
  case songs =>
    have hcut : (UInt8.ofNat l.songs.length).toNat = l.songs.length % 256 := UInt8.toNat_ofNat
    exact ⟨_, hsongs, hcut, by omega⟩
  case channels =>
    refine ⟨_, hcount, ?_⟩
    rw [hchannels]
    exact UInt8.toNat_ofNat_of_lt' l.project.length_channels
  case n163 =>
    have hbyte := toNat_n163Byte hchannels
    refine ⟨_, hn163, hbyte, ?_⟩
    rw [hbyte, Project.n163Count_eq]
    cases l.project.uses .n163 with
    | false => simp
    | true =>
      simp only [if_true, Bool.true_eq_false, false_or]
      omega

namespace Compile

variable {o : Options} {p : Project}

/-- The image of a compile counts its songs and channels as its layout does. -/
theorem generate_counts {g : Generated} {lines : List Line} {image : Image}
    (hg : generate o p = .ok g) (hlines : (packedLayout o p g).lines = .ok lines)
    (himage : Image.assemble lines o.dataBase = .ok image) :
    image.HasIndex o.labelStem p.channels (g.songs.map (·.index)) ∧
      image.Counts p g.songs.length := by
  obtain ⟨-, arpeggios, t, -, hall⟩ := generate_ok hg
  obtain ⟨tables, hassembled⟩ := Layout.assembled _ hlines himage
  have hchannels : ∀ song ∈ (packedLayout o p g).songs,
      song.streams.map (·.channel) = p.channels := by
    intro song hsong
    obtain ⟨data, hdata, rfl⟩ := List.mem_map.1 hsong
    rw [← (hall data hdata).channels]
    simp [packed, packSong, packStream]
  have hindex := hassembled.hasIndex hchannels
  have hcounts := hassembled.counts_ok rfl
  rw [show (packedLayout o p g).songs = g.songs.map (packed o) from rfl] at hindex hcounts
  rw [List.map_map] at hindex
  rw [List.length_map] at hcounts
  exact ⟨hindex, hcounts⟩

/-- **The header of a compile leads to the songs that were selected and to the streams of all
channels, and it counts them in bytes**: the number of channels is right, and the others are where
they fit. -/
theorem compile_counts {score : Score} (h : compile o p = .ok score) :
    ∃ selected, selectedSongs o p = .ok selected ∧
      score.image.HasIndex o.labelStem p.channels selected ∧
      score.image.Counts p selected.length := by
  obtain ⟨g, lines, hg, hlines, himage⟩ := compile_ok h
  obtain ⟨hindex, hcounts⟩ := generate_counts hg hlines himage
  rw [← List.length_map (·.index)] at hcounts
  exact ⟨_, (generate_ok hg).1, hindex, hcounts⟩

/-- The short tune, selected twice, has two songs on five channels, none of which is of the N163. -/
theorem compile_counts_shortTune : ∃ score, compile shortTuneTwice shortTune = .ok score ∧
    score.image.HasIndex "" shortTune.channels [0, 0] ∧ score.image.music[0]? = some 2 ∧
    score.image.music[3]? = some 0 ∧ score.image.music[4]? = some 5 := by
  obtain ⟨g, hg, hassembles⟩ := generate_shortTune
  obtain ⟨score, hscore⟩ := compile_succeeds hg hassembles
  obtain ⟨selected, hselected, hindex, hcounts⟩ := compile_counts hscore
  obtain rfl : [0, 0] = selected := Except.ok.inj hselected
  obtain ⟨songs, hsongs, hcut, -⟩ := hcounts.songs
  obtain ⟨channels, hchannels, hcount⟩ := hcounts.channels
  obtain ⟨n163, hn163, hnone, -⟩ := hcounts.n163
  obtain rfl : songs = 2 := UInt8.toNat_inj.1 hcut
  obtain rfl : channels = 5 := UInt8.toNat_inj.1 hcount
  obtain rfl : n163 = 0 := UInt8.toNat_inj.1 hnone
  exact ⟨score, hscore, hindex, hsongs, hn163, hchannels⟩

/-- A project that asks for nine N163 channels. -/
def nineVoices : Project :=
  { name := "p"
    expansions := { n163 := true }
    n163Channels := 9
    songs := [{ name := "tune", length := 1, patternLength := 1, tracks := [] }] }

/-- The header of this project counts nine N163 channels, but every song has streams for eight. -/
theorem not_counts_nineVoices : ∃ score, compile {} nineVoices = .ok score ∧
    score.image.HasIndex "" nineVoices.channels [0] ∧ nineVoices.n163Count = 8 ∧
    score.image.music[3]? = some 9 := by
  obtain ⟨g, hg, hassembles⟩ : ∃ g, generate {} nineVoices = .ok g ∧
      assembles (packedLayout {} nineVoices g) = true :=
    exists_generated rfl (by decide +kernel)
  obtain ⟨score, hscore⟩ := compile_succeeds hg hassembles
  obtain ⟨g, lines, hg, hlines, himage⟩ := compile_ok hscore
  obtain ⟨hindex, hcounts⟩ := generate_counts hg hlines himage
  have hselected : [0] = g.songs.map (·.index) := Except.ok.inj (generate_ok hg).1
  rw [← hselected] at hindex
  obtain ⟨count, hcount, hnine, -⟩ := hcounts.n163
  obtain rfl : count = 9 := UInt8.toNat_inj.1 hnine
  exact ⟨score, hscore, hindex, by decide, hcount⟩

end Compile

end Chiptune
