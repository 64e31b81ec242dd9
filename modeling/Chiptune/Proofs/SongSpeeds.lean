import Chiptune.Proofs.DroppedTracks
import Chiptune.Proofs.TempoPasses

/-!
# The speeds of a song

In speed tempo mode every track of a song may set the speed on a row, and the first one that does is
taken (`Song.columnSpeed`). The speed in effect is the last one that was set (`Song.speedAfter`).

* `Compile.compile_recordSpeed`: the speed in the record of a song.
* `Stream.generate_speeds`: **the speed is right at every row, on every pass**.
-/

set_option autoImplicit false

namespace Chiptune

namespace Song

/-- Speed of a row, given the rows of all tracks: that of the first track that has one. -/
def columnSpeed (columns : List (List Row)) (index : Nat) : Option UInt8 :=
  columns.findSome? fun rows => (rows[index]?.bind (·.note)).bind (·.speed)

/-- Speed in effect behind a number of rows. -/
def speedAfter (s : Song) (columns : List (List Row)) : Nat → UInt8
  | 0 => s.speed
  | index + 1 =>
    ((columnSpeed columns index).map Stream.playableSpeed).getD (s.speedAfter columns index)

/-- The rows of each track of a song. -/
def HasColumns (s : Song) (columns : List (List Row)) : Prop :=
  List.Forall₂ (fun track rows => s.rows (some track) = .ok rows) s.tracks columns

theorem columnSpeed_cons (rows : List Row) (columns : List (List Row)) (index : Nat) :
    columnSpeed (rows :: columns) index =
      ((rows[index]?.bind (·.note)).bind (·.speed) <|> columnSpeed columns index) := by
  rw [columnSpeed, List.findSome?_cons]
  cases (rows[index]?.bind (·.note)).bind (·.speed) <;> rfl

/-- Adding the speeds of some tracks takes those of the first tracks that have any. -/
theorem foldlM_addSpeeds {s : Song} {tracks : List Track} {speeds speeds' : List (Option UInt8)}
    (h : tracks.foldlM s.addSpeeds speeds = .ok speeds')
    (hlength : speeds.length = s.places.length) :
    ∃ columns, List.Forall₂ (fun track rows => s.rows (some track) = .ok rows) tracks columns ∧
      ∀ index, speeds'[index]? =
        speeds[index]?.map (· <|> columnSpeed columns index) := by
  induction tracks generalizing speeds with
  | nil =>
    cases h
    exact ⟨[], .nil, fun index => by simp [columnSpeed]⟩
  | cons track tracks ih =>
    rw [List.foldlM_cons] at h
    obtain ⟨added, hadded, h⟩ := bind_ok h
    obtain ⟨columns, hcolumns, hspeeds⟩ := ih h (length_addSpeeds hadded hlength)
    obtain ⟨rows, hrows, hadded⟩ := bind_ok hadded
    cases hadded
    refine ⟨rows :: columns, .cons hrows hcolumns, fun index => ?_⟩
    have hsize : speeds.length = rows.length := hlength.trans (length_rows hrows).symm
    rw [hspeeds, List.getElem?_zipWith, columnSpeed_cons]
    cases hspeed : speeds[index]? with
    | none => rfl
    | some speed =>
      have hrow : index < rows.length := hsize ▸ (List.getElem?_eq_some_iff.1 hspeed).1
      rw [List.getElem?_eq_getElem hrow]
      cases speed <;> simp

/-- **The speed of a row is that of the first track that sets one there.** -/
theorem speeds_columns {s : Song} {track : Option Track} {rows : List Row}
    {speeds : List (Option UInt8)} (hrows : s.rows track = .ok rows)
    (h : s.speeds rows.length = .ok speeds) :
    ∃ columns, s.HasColumns columns ∧
      ∀ index < rows.length, speeds[index]?.join = columnSpeed columns index := by
  rw [speeds_of_rows hrows, rowSpeeds_eq] at h
  obtain ⟨columns, hcolumns, hspeeds⟩ := foldlM_addSpeeds h List.length_replicate
  refine ⟨columns, hcolumns, fun index hindex => ?_⟩
  rw [length_rows hrows] at hindex
  rw [hspeeds, List.getElem?_replicate, if_pos hindex]
  rfl

end Song

namespace Compile

variable {o : Options} {p : Project}

/-- The record that the word of a song in the header leads to has a speed byte, behind the words of
the channels. -/
def RecordSpeed (o : Options) (p : Project) (image : Image) (song : Nat) (speed : UInt8) : Prop :=
  ∃ record, Player.readWord (fun a => image.music[a]?) (0x0C + 2 * song) = some record ∧
    image.memory o.dataBase (record.toNat + 2 * p.channels.length) = some speed

/-- **The record of a song in a compile has the speed of the song.** -/
theorem compile_recordSpeed {score : Score} (h : compile o p = .ok score)
    (hmode : p.tempoMode = .speed) {selected : List Nat}
    (hselected : selectedSongs o p = .ok selected)
    {i index : Nat} (hi : selected[i]? = some index) {source : Song}
    (hsource : p.songs[index]? = some source) :
    RecordSpeed o p score.image i source.speed := by
  obtain ⟨g, lines, hg, hlines, himage⟩ := compile_ok h
  obtain ⟨hindices, arpeggios, t, hstart, hall⟩ := generate_ok hg
  obtain rfl := Except.ok.inj (hindices.symm.trans hselected)
  obtain ⟨tables, hassembled⟩ := Layout.assembled _ hlines himage
  rw [List.getElem?_map] at hi
  obtain ⟨song, hsong, rfl⟩ := Option.map_eq_some_iff.1 hi
  -- the word of the song leads to the last record of its name, which is of the same song
  obtain ⟨last, hlast, hindex, front, back, hlayout, hothers⟩ :=
    exists_last_record (o := o) (p := p) (List.mem_of_getElem? hsong)
  have hspeed : last.speed = source.speed := by
    obtain ⟨source', hrecords⟩ := generate_records hg last hlast
    have hsame := hrecords.mem
    rw [hindex, hsource] at hsame
    rw [(hrecords.speed hmode).1, Option.some.inj hsame]
  have hcount : (packed o last).streams.length = p.channels.length := by
    rw [← (hall last hlast).channels, packed, packSong]
    simp
  obtain ⟨record, hrecord, hbyte⟩ :=
    hassembled.speed_record (streamsMarkLoops hall) hlayout hothers
  rw [hcount] at hbyte
  exact ⟨record, hassembled.readWord_header (packedLayout_song hsong) (hindex ▸ hrecord),
    hspeed ▸ hbyte⟩

end Compile

namespace Stream

variable {job : Job} {rows : List Row} {speeds : List (Option UInt8)} {columns : List (List Row)}

theorem speed_tempoAfter (hmode : job.project.tempoMode = .speed)
    (hspeeds : ∀ index < rows.length, speeds[index]?.join = Song.columnSpeed columns index)
    {count : Nat} (hcount : count ≤ rows.length) :
    (tempoAfter job rows speeds count).speed = job.song.speedAfter columns count := by
  induction count with
  | zero => rfl
  | succ index ih =>
    rw [tempoAfter_succ (List.getElem?_eq_getElem hcount), Tempo.take, hmode,
      hspeeds index hcount, Song.speedAfter, ← ih (by omega)]

/-- A row is played at the speed that is in effect behind it, by the channel that carries the tempo,
and on every channel its slide is computed for this speed. -/
structure AtSpeed (job : Job) (rows : List Row) (columns : List (List Row)) (index : Nat)
    (played : List Instruction × Pace) : Prop where
  speed : job.carriesTempo = true →
    played.2.speed = job.song.speedAfter columns (index + 1)
  slide : ∀ bytes addresses, .op .slide bytes addresses ∈ played.1 →
    ∃ row, rows[index]? = some row ∧ IsSlide job (job.song.speedAfter columns (index + 1)) row
      (rows.drop (index + 1)) (.op .slide bytes addresses)

/-- **The speed is right at every row, on every pass.** A driver that begins with the speed of the
song plays every row at the speed that the song has there, on each pass that it jumps back to; all
channels compute their slides for this speed, and those that do not carry the tempo send none. The
speed that the driver begins with is the one in the record of the song, in every compile that
selects it. -/
theorem generate_speeds {t t' : Tables} {tokens : List Token}
    (h : generate job t = (.ok tokens, t')) :
    (job.carriesTempo = false → ∀ i ∈ disassemble job.kernel tokens, i.setsTempo = false) ∧
    (job.project.tempoMode = .speed → ∃ rows columns,
      job.song.rows (job.song.track job.channel) = .ok rows ∧ job.song.HasColumns columns ∧
      ∀ jumps, List.Forall₂ (AtSpeed job rows columns)
        (passRows (loopRow job.song rows {}).1 jumps (List.range rows.length))
        (Pace.rows ⟨job.song.speed, none⟩ (Driver.playEvents Instruction.paced
          (disassemble job.kernel tokens) jumps [] (disassemble job.kernel tokens)))) ∧
    (job.project.tempoMode = .speed → job.project.songs[job.songIndex]? = some job.song →
      ∀ o score selected i, compile o job.project = .ok score →
        Compile.selectedSongs o job.project = .ok selected → selected[i]? = some job.songIndex →
        Compile.RecordSpeed o job.project score.image i job.song.speed) := by
  refine ⟨generate_silent h, fun hmode => ?_,
    fun hmode hsong o score selected i hscore hselected hi =>
      Compile.compile_recordSpeed hscore hmode hselected hi hsong⟩
  have hnot : job.project.tempoMode = .groove → t.grooves.Indexed := by rw [hmode]; rintro ⟨⟩
  obtain ⟨rows, speeds, hrows, hspeeds, htimed⟩ := generate_timed hnot h (.refl t') fun _ => rfl
  obtain ⟨columns, hcolumns, hcolumn⟩ := Song.speeds_columns hrows hspeeds
  refine ⟨rows, columns, hrows, hcolumns, fun jumps => (htimed jumps).imp ?_⟩
  rintro index played ⟨row, hrow, htimed⟩
  have hlt : index < rows.length := (List.getElem?_eq_some_iff.1 hrow).1
  have hspeed := speed_tempoAfter hmode hcolumn hlt
  exact ⟨fun hc => (htimed.speed hc hmode).trans hspeed, fun bytes addresses hmem =>
    ⟨row, hrow, hspeed ▸ htimed.slide _ hmem rfl⟩⟩

/-- A song of two bars that returns to the second one; a track sets a speed there. -/
def hurriedSong : Song :=
  { name := "tune", length := 2, patternLength := 4, loopPoint := some 1
    tracks := [
      { channel := .square1
        patterns := [{ notes := [
          { row := 0, value := some (.pitch 36), instrument := some 0, volume := some 9 },
          { row := 2, value := some .release },
          { row := 3, value := some .stop, volume := some 12 }] }]
        order := [some 0, some 0] },
      { channel := .triangle
        patterns := [{ notes := [{ row := 1, speed := some 40 }] }]
        order := [none, some 0] }] }

/-- The song on the first channel of a project. -/
def hurriedTune : Job :=
  { loopedTune with
    project := { loopedTune.project with songs := [hurriedSong] }
    song := hurriedSong }

/-- The tune is played at its speeds on every pass, and a compile has a record with the first. -/
theorem generate_speeds_hurriedTune : ∃ tokens t, generate hurriedTune {} = (.ok tokens, t) ∧
    (∃ rows columns, hurriedSong.rows (hurriedSong.track .square1) = .ok rows ∧
      hurriedSong.HasColumns columns ∧
      ∀ jumps, List.Forall₂ (AtSpeed hurriedTune rows columns)
        (passRows (loopRow hurriedSong rows {}).1 jumps (List.range rows.length))
        (Pace.rows ⟨6, none⟩ (Driver.playEvents Instruction.paced
          (disassemble .extended tokens) jumps [] (disassemble .extended tokens)))) ∧
    ∃ score, compile { compression := .off } hurriedTune.project = .ok score ∧
      Compile.RecordSpeed { compression := .off } hurriedTune.project score.image 0 6 := by
  obtain ⟨tokens, t, h⟩ : ∃ tokens t, generate hurriedTune {} = (.ok tokens, t) :=
    exists_of_generate (by decide +kernel)
  obtain ⟨g, hg, hassembles⟩ := @Compile.exists_generated { compression := .off }
    hurriedTune.project rfl (by decide +kernel)
  obtain ⟨score, hscore⟩ := Compile.compile_succeeds hg hassembles
  obtain ⟨-, hplays, hrecord⟩ := generate_speeds h
  exact ⟨tokens, t, h, hplays rfl, score, hscore, hrecord rfl rfl _ score [0] 0 hscore rfl rfl⟩

end Stream

end Chiptune
