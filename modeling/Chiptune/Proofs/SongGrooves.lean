import Chiptune.Proofs.LabelNames
import Chiptune.Proofs.Refusals
import Chiptune.Proofs.Skeleton
import Chiptune.Proofs.Songs
import Chiptune.Proofs.TempoPasses

/-!
# The grooves of a song

In groove tempo mode a song has a groove, and a position may start another one. The first channel
selects a groove on the first row of its position, so it plays the last one that started at a
position with rows (`Song.grooveBefore`). Slides are computed for the last one that started at any
position (`Song.grooveAt`); the two are the same unless the latter starts at a position without rows
(`Song.grooveBefore_succ`).

* `Compile.generate_grooves`: **the driver plays the groove that slides are computed for**, on every
  row of every pass.
* `Compile.not_playsGrooves`: not on a kernel without grooves, and not if the groove starts at a
  position without rows.
-/

set_option autoImplicit false

namespace Chiptune

/-! ## Grooves of positions -/

namespace Song

/-- Groove that the first channel has selected behind a number of positions. -/
def grooveBefore (s : Song) : Nat → List UInt8
  | 0 => s.groove
  | position + 1 =>
    if s.positionLength position = 0 then s.grooveBefore position
    else (s.positionGroove position).getD (s.grooveBefore position)

/-- Position at which the groove of a position starts, unless it is the one of the song. -/
def grooveStart (s : Song) : Nat → Option Nat
  | 0 => (s.positionGroove 0).map fun _ => 0
  | position + 1 =>
    if (s.positionGroove (position + 1)).isSome then some (position + 1) else s.grooveStart position

/-- The groove of a position starts on a row, or with the song. -/
def StartsOnRow (s : Song) (position : Nat) : Prop :=
  ∀ start ∈ s.grooveStart position, 0 < s.positionLength start

instance (s : Song) (position : Nat) : Decidable (s.StartsOnRow position) :=
  inferInstanceAs (Decidable (∀ start ∈ s.grooveStart position, 0 < s.positionLength start))

/-- **The selected groove is the one of the position**, if this one starts on a row. -/
theorem grooveBefore_succ {s : Song} {position : Nat} (h : s.StartsOnRow position) :
    s.grooveBefore (position + 1) = s.grooveAt position := by
  induction position with
  | zero =>
    rw [grooveBefore, grooveBefore, grooveAt]
    cases hgroove : s.positionGroove 0 with
    | none => split <;> rfl
    | some groove =>
      have hlength : 0 < s.positionLength 0 := h 0 (by simp [grooveStart, hgroove])
      rw [if_neg (by omega)]
  | succ position ih =>
    rw [grooveBefore, grooveAt]
    cases hgroove : s.positionGroove (position + 1) with
    | none =>
      have hstart : s.grooveStart (position + 1) = s.grooveStart position := by
        simp [grooveStart, hgroove]
      have hbefore := ih fun start hmem => h start (hstart ▸ hmem)
      split <;> exact hbefore
    | some groove =>
      have hlength : 0 < s.positionLength (position + 1) :=
        h (position + 1) (by simp [grooveStart, hgroove])
      rw [if_neg (by omega)]
      rfl

/-- Groove that is selected behind a place. -/
def selectAt (s : Song) (groove : List UInt8) (place : Nat × Bool) : List UInt8 :=
  if place.2 then (s.positionGroove place.1).getD groove else groove

/-- Behind its first row a position has selected its groove. -/
theorem foldl_placesAt (s : Song) (position : Nat) {count : Nat}
    (h : count < s.positionLength position) (groove : List UInt8) :
    ((s.placesAt position).take (count + 1)).foldl s.selectAt groove =
      (s.positionGroove position).getD groove := by
  have hplaces : (s.placesAt position).take (count + 1) =
      (List.range (count + 1)).map fun row => (position, row == 0) := by
    rw [placesAt, ← List.map_take, List.take_range, Nat.min_eq_left h]
  have hrest : ∀ (rows : List Nat) (groove : List UInt8), (∀ row ∈ rows, row ≠ 0) →
      (rows.map fun row => (position, row == 0)).foldl s.selectAt groove = groove := by
    intro rows groove hrows
    induction rows with
    | nil => rfl
    | cons row rows ih =>
      have hrow : (row == 0) = false := by simpa using hrows row List.mem_cons_self
      rw [List.map_cons, List.foldl_cons, selectAt, hrow, if_neg (by simp)]
      exact ih fun r hr => hrows r (List.mem_cons_of_mem _ hr)
  rw [hplaces, List.range_succ_eq_map, List.map_cons, List.foldl_cons]
  exact hrest _ _ (by simp)

theorem foldl_placesFrom (s : Song) {count position index : Nat} {place : Nat × Bool}
    (h : (s.placesFrom count position)[index]? = some place) :
    ((s.placesFrom count position).take (index + 1)).foldl s.selectAt (s.grooveBefore position) =
      s.grooveBefore (place.1 + 1) := by
  induction count generalizing position index with
  | zero => cases h
  | succ count ih =>
    rw [placesFrom] at h ⊢
    have hlength : (s.placesAt position).length = s.positionLength position := by
      simp [placesAt]
    by_cases hindex : index < s.positionLength position
    · have hplace : place.1 = position := by
        rw [List.getElem?_append_left (hlength ▸ hindex)] at h
        obtain ⟨row, -, rfl⟩ := List.mem_map.1 (List.mem_of_getElem? h)
        rfl
      rw [List.take_append_of_le_length (by omega), foldl_placesAt s position hindex, hplace,
        grooveBefore, if_neg (by omega)]
    · rw [List.getElem?_append_right (by omega), hlength] at h
      have hsub : index + 1 = (s.placesAt position).length +
          (index - s.positionLength position + 1) := by omega
      have hall : (s.placesAt position).foldl s.selectAt (s.grooveBefore position) =
          s.grooveBefore (position + 1) := by
        rw [grooveBefore]
        cases hcount : s.positionLength position with
        | zero =>
          rw [List.eq_nil_of_length_eq_zero (hlength.trans hcount)]
          rfl
        | succ n =>
          have hfold := s.foldl_placesAt position (show n < _ by omega) (s.grooveBefore position)
          rw [List.take_of_length_le (by omega)] at hfold
          rw [hfold, if_neg (by omega)]
      rw [hsub, List.take_length_add_append, List.foldl_append, hall]
      exact ih h

end Song

namespace Stream

variable {job : Job} {rows : List Row} {speeds : List (Option UInt8)}

/-- The groove that a song asks for is the one that its places have selected. -/
theorem groove_tempoAfter (speeds : List (Option UInt8))
    (hmode : job.project.tempoMode = .groove) {count : Nat}
    (hcount : count ≤ rows.length) : (tempoAfter job rows speeds count).groove =
      ((rows.map Row.place).take count).foldl job.song.selectAt job.song.groove := by
  induction count with
  | zero => rfl
  | succ index ih =>
    have hrow : rows[index]? = some rows[index] := List.getElem?_eq_getElem hcount
    rw [tempoAfter_succ hrow, Tempo.take, hmode]
    simp only [List.take_add_one, List.foldl_append, ← ih (by omega)]
    rw [List.getElem?_map, hrow]
    simp only [Song.rowGroove, Row.place, Song.selectAt, Option.map_some, Option.toList_some,
      List.foldl_cons, List.foldl_nil]
    split <;> rfl

/-- **On every row the song asks for the last groove that started on a row.** -/
theorem groove_tempoAfter_row (speeds : List (Option UInt8))
    (hmode : job.project.tempoMode = .groove) {track : Option Track}
    (hrows : job.song.rows track = .ok rows) {index : Nat} {row : Row}
    (hrow : rows[index]? = some row) :
    (tempoAfter job rows speeds (index + 1)).groove = job.song.grooveBefore (row.position + 1) := by
  have hplace : job.song.places[index]? = some row.place := by
    rw [← Song.places_rows hrows, List.getElem?_map, hrow]
    rfl
  rw [groove_tempoAfter speeds hmode (List.getElem?_eq_some_iff.1 hrow).1, Song.places_rows hrows]
  exact job.song.foldl_placesFrom hplace

/-- On its first pass a driver plays each row once. -/
theorem exists_firstPass {α : Type} {R : Nat → α → Prop} {loopAt : Option Nat} {count index : Nat}
    {played : List α} (h : List.Forall₂ R (passRows loopAt 0 (List.range count)) played)
    (hindex : index < count) : ∃ row, played[index]? = some row ∧ R index row := by
  have hpass : passRows loopAt 0 (List.range count) = List.range count := by
    cases loopAt <;> simp [passRows]
  rw [hpass] at h
  have hlength : index < played.length := by
    rw [← h.length_eq]
    simpa using hindex
  have hplayed := h.get (by simpa using hindex) hlength
  simp only [List.get_eq_getElem, List.getElem_range] at hplayed
  exact ⟨played[index], List.getElem?_eq_getElem hlength, hplayed⟩

/-- Frames that a row lasts on average in a groove. -/
def grooveFrames (groove : List UInt8) : Float :=
  match groove with
  | [] => 6
  | groove =>
    Float.ofNat (groove.foldr (fun frames sum => max 1 frames.toNat + sum) 0) /
      Float.ofNat groove.length

/-- In groove tempo mode a row lasts as long as the groove of its position says. -/
theorem framesPerRow_groove (song : Song) (speed : UInt8) (machine : Machine) (position : Nat) :
    framesPerRow song speed .groove machine position = grooveFrames (song.grooveAt position) := rfl

/-- A slide to the next note, computed for a groove. -/
def IsGrooveSlide (channel : Channel) (machine : Machine) (groove : List UInt8) (rest : List Row)
    (i : Instruction) : Prop :=
  let frames := Float.ofNat (Voice.rowsToNext rest) * grooveFrames groove
  ∃ source target : UInt8, i = .op .slide
    [(slideStep channel.pitchProfile machine source target frames frames).toUInt8,
      source, target] []

theorem IsSlide.groove (hmode : job.project.tempoMode = .groove) {speed : UInt8} {row : Row}
    {rest : List Row} {i : Instruction} (h : IsSlide job speed row rest i) :
    IsGrooveSlide job.channel job.machine (job.song.grooveAt row.position) rest i := by
  obtain ⟨source, target, rfl⟩ := h
  refine ⟨source, target, ?_⟩
  simp only [Job.slideStep, hmode, framesPerRow_groove]

/-! ## Rows without cells -/

theorem runRows_silent (loopAt : Option Nat) {rest : List Row}
    (h : ∀ row ∈ rest, row.note = none) (index : Nat) (later : List (Option UInt8))
    (done : List Piece) (v : Voice) :
    ∃ pieces v', runRows job rows speeds loopAt index rest later done v = .ok (pieces, v') := by
  induction rest generalizing index later done v with
  | nil => exact ⟨_, _, rfl⟩
  | cons row rest ih =>
    have hrow : ∀ v : Voice, v.processRow job index row later.head?.join rest =
        .ok (v.tempoOf job row later.head?.join, false) := by
      intro v
      unfold Voice.processRow
      simp only [h row List.mem_cons_self]
      rfl
    rw [runRows, runRow_eq, hrow]
    exact ih (fun r hr => h r (List.mem_cons_of_mem _ hr)) _ _ _ _

/-- **A channel without cells has a stream.** -/
theorem generate_succeeds_of_silent (hslots : job.slots.Bounded) {t : Tables}
    (hb : t.Backs job.arpeggios) (hrows : job.song.rows (job.song.track job.channel) = .ok rows)
    (hspeeds : job.song.speeds rows.length = .ok speeds) (hsilent : ∀ row ∈ rows, row.note = none) :
    ∃ tokens t', generate job t = (.ok tokens, t') := by
  obtain ⟨pieces, v, hrun⟩ : ∃ pieces v, runRows job rows speeds
      (loopRow job.song rows (Voice.start job t).tables.log).1 0 rows speeds []
        (opening job rows t) = .ok (pieces, v) :=
    runRows_silent _ hsilent 0 speeds [] _
  obtain ⟨more, rfl, hruns⟩ := runs_of_runRows hrun
  obtain ⟨tokens, htokens⟩ := hruns.encodes hslots rfl (ready_opening hb)
  rw [← row_ending (hruns.row_eq rfl)] at htokens
  exact ⟨tokens, _, generate_iff.2 ⟨rows, speeds, _, _, v, hrows, hspeeds, rfl, hrun, htokens, rfl⟩⟩

end Stream

/-! ## The grooves of a compile -/

/-- A groove plays whose table entry has the bytes of a given one. -/
def Pace.PlaysEntry (p : Pace) (stem : String) (t : Tables) (first : Nat) (groove : List UInt8) :
    Prop :=
  ∃ index, p.Plays stem t first index ∧ t.grooves.get? index = some (Tables.grooveBytes groove)

/-- Only one groove plays. -/
theorem Pace.PlaysEntry.unique {p : Pace} {stem : String} {t : Tables} {first : Nat}
    {groove groove' : List UInt8} (h : p.PlaysEntry stem t first groove)
    (h' : p.PlaysEntry stem t first groove') :
    Tables.grooveBytes groove = Tables.grooveBytes groove' := by
  obtain ⟨index, hplays, hentry⟩ := h
  obtain ⟨index', hplays', hentry'⟩ := h'
  have hindex : index = index' := by
    unfold Plays at hplays hplays'
    cases hgroove : p.groove with
    | none =>
      simp only [hgroove] at hplays hplays'
      rw [hplays, hplays']
    | some target =>
      simp only [hgroove] at hplays hplays'
      obtain ⟨id, rfl, hname⟩ := hplays
      obtain ⟨id', hid, hname'⟩ := hplays'
      cases hid
      have hlabel := Label.text_inj (a := .groove index) (b := .groove index') trivial trivial
        (Option.some.inj (hname.symm.trans hname'))
      exact Label.groove.inj hlabel
  rw [hindex] at hentry
  exact Option.some.inj (hentry.symm.trans hentry')

namespace Compile

variable {o : Options} {p : Project} {g : Generated} {song : SongData} {source : Song}

/-- What a driver plays on each row of a stream, with a number of jumps, from the speed of a song
record on. -/
def playedRows (k : Kernel) (speed : UInt8) (tokens : List Token) (jumps : Nat) :
    List (List Instruction × Pace) :=
  Pace.rows ⟨speed, none⟩ (Driver.playEvents Instruction.paced (disassemble k tokens) jumps []
    (disassemble k tokens))

/-- What a channel plays on the row of an index in groove tempo mode: the first channel plays the
groove that was selected last, a kernel without grooves the one of the song record, and slides are
computed for the groove of the position. -/
structure PlaysGroove (o : Options) (p : Project) (t : Tables) (first : Nat) (source : Song)
    (channel : Channel) (rows : List Row) (index : Nat) (row : Row)
    (played : List Instruction × Pace) : Prop where
  selected : p.channels.head? = some channel → o.kernel = .extended →
    played.2.PlaysEntry o.labelStem t first (source.grooveBefore (row.position + 1))
  record : o.kernel = .classic → played.2.groove = none
  slide : ∀ bytes addresses, .op .slide bytes addresses ∈ played.1 →
    Stream.IsGrooveSlide channel (o.machine.getD p.machine) (source.grooveAt row.position)
      (rows.drop (index + 1)) (.op .slide bytes addresses)

/-- **What the channels of a song play in groove tempo mode**, on every row of every pass. -/
theorem generate_selected (h : generate o p = .ok g) (hmode : p.tempoMode = .groove)
    (hsong : song ∈ g.songs) :
    ∃ source first, p.songs[song.index]? = some source ∧ song.groove = some first ∧
      g.tables.grooves.get? first = some (Tables.grooveBytes source.groove) ∧
      ∀ s ∈ song.streams, ∃ rows, source.rows (source.track s.channel) = .ok rows ∧ ∀ jumps,
        List.Forall₂ (fun index played => ∃ row, rows[index]? = some row ∧
            PlaysGroove o p g.tables first source s.channel rows index row played)
          (Stream.passRows (Stream.loopRow source rows {}).1 jumps (List.range rows.length))
          (playedRows o.kernel song.speed s.tokens jumps) := by
  obtain ⟨r, selected, songs, tables, hprepare, -, hsongs, rfl⟩ := generate_iff.1 h
  have hindexed := (extends_prepare hprepare).grooves.indexed UniqueTable.indexed_empty
  obtain ⟨source, hrecords⟩ := addSongs_records hindexed hsongs song hsong
  obtain ⟨first, hfirst, hfound⟩ := hrecords.groove hmode
  refine ⟨source, first, hrecords.mem, hfirst, UniqueTable.get?_of_find? hfound, fun s hs => ?_⟩
  obtain ⟨source', patches, -, -, hsource', -, hall⟩ :=
    ((addSongs_ok hsongs).2.2 song hsong).streams
  obtain rfl := Option.some.inj (hrecords.mem.symm.trans hsource')
  obtain ⟨u, u', hgenerate, hfrom, hto⟩ := hall s hs
  have hu : u.grooves.Indexed := hfrom.grooves.indexed hindexed
  have hu' : u'.grooves.Indexed := (Stream.extends_generate hgenerate).grooves.indexed hu
  have hnot : p.tempoMode = .speed → song.speed = source.speed := by rw [hmode]; rintro ⟨⟩
  obtain ⟨rows, speeds, hrows, -, htimed⟩ :=
    Stream.generate_timed (fun _ => hu) hgenerate hto hnot
  -- the groove of the record is the one that the stream begins with
  have hsame : Stream.firstGroove
      (streamJob o p r.slots r.arpeggios song.index source patches s.channel) u = first := by
    have hbegin := hto.grooves.find? hu' _ _ _ (Stream.firstGroove_found hmode hu hgenerate)
    exact Option.some.inj (hbegin.symm.trans hfound)
  rw [hsame] at htimed
  refine ⟨rows, hrows, fun jumps => (htimed jumps).imp ?_⟩
  rintro index played ⟨row, hrow, htimed⟩
  have hgroove := Stream.groove_tempoAfter_row speeds hmode hrows hrow
  refine ⟨row, hrow, fun hc hk => ?_, fun hk => ?_, fun bytes addresses hmem => ?_⟩
  · have hsupports : o.kernel.supports .groove = true := by rw [hk]; rfl
    obtain ⟨groove, hplays, hentry⟩ := htimed.groove (by simpa [streamJob] using hc) hmode hsupports
    exact ⟨groove, hplays, hgroove ▸ hentry⟩
  · have hsupports : o.kernel.supports .groove = false := by rw [hk]; rfl
    exact htimed.lacking hsupports
  · exact (htimed.slide _ hmem rfl).groove hmode

/-- Up to 2^32 names, the symbols of the streams of a compile are numbers of 32 bits. -/
theorem generate_words (h : generate o p = .ok g) (hsong : song ∈ g.songs) {s : ChannelStream}
    (hs : s ∈ song.streams) (hnames : g.tables.symbols.names.size ≤ UInt32.size) :
    ∀ i ∈ disassemble o.kernel s.tokens, i.Numbered UInt32.size := by
  obtain ⟨-, arpeggios, t, -, hall⟩ := generate_ok h
  obtain ⟨source, patches, -, -, -, -, hgenerates⟩ := (hall song hsong).streams
  obtain ⟨u, u', hgenerate, -, hto⟩ := hgenerates s hs
  exact Stream.generate_words hgenerate (Nat.le_trans hto.size_names hnames)

/-- **The driver plays the groove that slides are computed for.** In groove tempo mode, whatever the
overrides and lengths of the positions are, the first channel plays on every row of every pass the
entry of the groove of its position, if the kernel has grooves and this one starts on a row. A
kernel without grooves plays the groove of the song record throughout. The numbers by which the
streams name grooves are of 32 bits as long as the tables have at most 2^32 names. -/
theorem generate_grooves (h : generate o p = .ok g) (hmode : p.tempoMode = .groove)
    (hsong : song ∈ g.songs) :
    ∃ source first, p.songs[song.index]? = some source ∧ song.groove = some first ∧
      g.tables.grooves.get? first = some (Tables.grooveBytes source.groove) ∧
      ∀ s ∈ song.streams,
        (g.tables.symbols.names.size ≤ UInt32.size →
          ∀ i ∈ disassemble o.kernel s.tokens, i.Numbered UInt32.size) ∧
        ∃ rows, source.rows (source.track s.channel) = .ok rows ∧ ∀ jumps,
        List.Forall₂ (fun index played => ∃ row, rows[index]? = some row ∧
            (p.channels.head? = some s.channel → o.kernel = .extended →
              source.StartsOnRow row.position →
              played.2.PlaysEntry o.labelStem g.tables first (source.grooveAt row.position)) ∧
            (o.kernel = .classic → played.2.groove = none) ∧
            ∀ bytes addresses, .op .slide bytes addresses ∈ played.1 →
              Stream.IsGrooveSlide s.channel (o.machine.getD p.machine)
                (source.grooveAt row.position) (rows.drop (index + 1)) (.op .slide bytes addresses))
          (Stream.passRows (Stream.loopRow source rows {}).1 jumps (List.range rows.length))
          (playedRows o.kernel song.speed s.tokens jumps) := by
  obtain ⟨source, first, hsource, hfirst, hentry, hall⟩ := generate_selected h hmode hsong
  refine ⟨source, first, hsource, hfirst, hentry, fun s hs => ?_⟩
  obtain ⟨rows, hrows, hplays⟩ := hall s hs
  refine ⟨generate_words h hsong hs, rows, hrows, fun jumps => (hplays jumps).imp ?_⟩
  rintro index played ⟨row, hrow, hplays⟩
  exact ⟨row, hrow, fun hc hk hstart => Song.grooveBefore_succ hstart ▸ hplays.selected hc hk,
    hplays.record, hplays.slide⟩

/-! ## Songs without tracks -/

/-- Channels that have streams whatever the tables before them hold have them together. -/
theorem addChannels_succeeds (job : Channel → Stream.Job) {arpeggios : List Nat}
    (h : ∀ channel t, t.Backs arpeggios →
      ∃ tokens t', Stream.generate (job channel) t = (.ok tokens, t'))
    (channels : List Channel) {t : Tables} (ht : t.Backs arpeggios) :
    ∃ streams t', addChannels job channels t = .ok (streams, t') := by
  induction channels generalizing t with
  | nil => exact ⟨[], t, rfl⟩
  | cons channel rest ih =>
    obtain ⟨tokens, u, hgenerate⟩ := h channel t ht
    obtain ⟨streams, t', hstreams⟩ := ih (ht.mono (Stream.extends_generate hgenerate))
    exact ⟨⟨channel, tokens⟩ :: streams, t', by rw [addChannels, hgenerate]; simp [hstreams]; rfl⟩

/-- **A song without tracks is generated**, with a stream for each channel. -/
theorem generate_trackless {rows : List Row} {speeds : List (Option UInt8)} {r : Prepared}
    (hprepare : prepare o p = .ok r) (hselected : selectedSongs o p = .ok [0])
    (hsource : p.songs[0]? = some source) (htracks : source.tracks = [])
    (hvrc7 : p.uses .vrc7 = false) (hrows : source.rows none = .ok rows)
    (hspeeds : source.speeds rows.length = .ok speeds) (hsilent : ∀ row ∈ rows, row.note = none) :
    ∃ g, generate o p = .ok g ∧
      ∃ song ∈ g.songs, song.index = 0 ∧ song.streams.map (·.channel) = p.channels := by
  obtain ⟨-, -, log, log', t, hassign, -, -⟩ := prepare_ok hprepare
  have hslots : r.slots.Bounded := by
    have hbounded := Slots.bounded_assign p o.kernel log
    rwa [hassign] at hbounded
  have hnone : ∀ channel, source.track channel = none := fun channel => by
    rw [Song.track, htracks]
    rfl
  obtain ⟨streams, t', hstreams⟩ :=
    addChannels_succeeds (streamJob o p r.slots r.arpeggios 0 source none)
      (fun channel t ht => Stream.generate_succeeds_of_silent hslots ht
        ((congrArg source.rows (hnone channel)).trans hrows) hspeeds hsilent)
      p.channels (backs_prepare hprepare)
  obtain ⟨song, u, hsong⟩ :
      ∃ song u, addSong o p r.slots r.arpeggios 0 r.tables = .ok (song, u) := by
    unfold addSong
    simp only [hsource, htracks, List.foldlM_nil, songPatches, hvrc7, Bool.false_eq_true, if_false,
      pure, Except.pure, bind, Except.bind, hstreams]
    exact ⟨_, _, rfl⟩
  have hsongs : addSongs o p r.slots r.arpeggios [0] r.tables = .ok ([song], u) := by
    rw [addSongs, hsong]
    rfl
  obtain ⟨hindex, -, hfrom⟩ := addSong_ok hsong
  exact ⟨_, generate_iff.2 ⟨r, _, _, _, hprepare, hselected, hsongs, rfl⟩, song,
    List.mem_singleton.2 rfl, hindex, hfrom.channels⟩

/-- A song of three positions without cells, the second one with a groove of its own. -/
def grooveSong (length : Option Nat) : Song :=
  { name := "tune", length := 3, patternLength := 1, tracks := []
    overrides := [{ position := 1, length, groove := some [3] }] }

/-- A project with the song. -/
def grooveProject (length : Option Nat) : Project :=
  { name := "score", tempoMode := .groove, songs := [grooveSong length] }

/-- The song is generated, with a stream for the first channel. -/
theorem generate_grooveProject (kernel : Kernel) {length : Option Nat} {rows : List Row}
    (hrows : (grooveSong length).rows none = .ok rows) (hsilent : ∀ row ∈ rows, row.note = none) :
    ∃ g, generate { kernel } (grooveProject length) = .ok g ∧
      ∃ song ∈ g.songs, song.index = 0 ∧ ∃ s ∈ song.streams, s.channel = .square1 := by
  obtain ⟨r, hprepare⟩ : ∃ r, prepare { kernel } (grooveProject length) = .ok r := ⟨_, rfl⟩
  obtain ⟨g, hg, song, hsong, hindex, hchannels⟩ :=
    generate_trackless hprepare rfl rfl rfl rfl hrows rfl hsilent
  obtain ⟨s, hs, hc⟩ : ∃ s ∈ song.streams, s.channel = .square1 :=
    List.mem_map.1 (hchannels ▸ List.mem_of_mem_head? rfl)
  exact ⟨g, hg, song, hsong, hindex, s, hs, hc⟩

theorem rows_grooveSong : (grooveSong none).rows none =
    .ok [⟨0, true, none⟩, ⟨1, true, none⟩, ⟨2, true, none⟩] :=
  ok_of_toOption (by decide)

theorem rows_rowlessGroove : (grooveSong (some 0)).rows none =
    .ok [⟨0, true, none⟩, ⟨2, true, none⟩] :=
  ok_of_toOption (by decide)

/-- The groove of the second position plays on its row. -/
theorem generate_grooves_grooveProject : ∃ g, generate {} (grooveProject none) = .ok g ∧
    ∃ song ∈ g.songs, ∃ s ∈ song.streams, s.channel = .square1 ∧ ∃ first,
      song.groove = some first ∧ ∃ played : List Instruction × Pace,
        (playedRows .extended song.speed s.tokens 0)[1]? = some played ∧
          played.2.PlaysEntry "" g.tables first [3] := by
  obtain ⟨g, hg, song, hsong, hindex, s, hs, hc⟩ :=
    generate_grooveProject .extended rows_grooveSong (by decide)
  obtain ⟨source, first, hsource, hfirst, -, hall⟩ := generate_grooves hg rfl hsong
  rw [hindex] at hsource
  obtain rfl : grooveSong none = source := Option.some.inj hsource
  obtain ⟨-, rows, hrows, hplays⟩ := hall s hs
  obtain rfl := Except.ok.inj (rows_grooveSong.symm.trans hrows)
  obtain ⟨played, hplayed, row, hrow, hselected, -⟩ :=
    Stream.exists_firstPass (hplays 0) (show 1 < _ by decide)
  obtain rfl : (⟨1, true, none⟩ : Row) = row := Option.some.inj hrow
  exact ⟨g, hg, song, hsong, s, hs, hc, first, hfirst, played, hplayed,
    hselected (hc ▸ rfl) rfl (by decide)⟩

/-- On every row of the first pass the first channel plays the groove of the position. -/
def PlaysGrooves (o : Options) (p : Project) : Prop :=
  ∀ g, generate o p = .ok g → ∀ song ∈ g.songs, ∀ source first,
    p.songs[song.index]? = some source → song.groove = some first →
    ∀ s ∈ song.streams, p.channels.head? = some s.channel →
    ∀ rows, source.rows (source.track s.channel) = .ok rows → ∀ (index : Nat) (row : Row),
      rows[index]? = some row → ∀ played : List Instruction × Pace,
        (playedRows o.kernel song.speed s.tokens 0)[index]? = some played →
          played.2.PlaysEntry o.labelStem g.tables first (source.grooveAt row.position)

/-- Then the groove of the position is the one that is selected, or that of the song record. -/
theorem PlaysGrooves.same {kernel : Kernel} {length : Option Nat} {rows : List Row}
    (h : PlaysGrooves { kernel } (grooveProject length))
    (hrows : (grooveSong length).rows none = .ok rows) (hsilent : ∀ row ∈ rows, row.note = none)
    (index : Nat) {row : Row} (hrow : rows[index]? = some row) :
    Tables.grooveBytes (if kernel = .extended then
        (grooveSong length).grooveBefore (row.position + 1) else (grooveSong length).groove) =
      Tables.grooveBytes ((grooveSong length).grooveAt row.position) := by
  obtain ⟨g, hg, song, hsong, hindex, s, hs, hc⟩ := generate_grooveProject kernel hrows hsilent
  obtain ⟨source, first, hsource, hfirst, hentry, hall⟩ := generate_selected hg rfl hsong
  have hfound := h g hg song hsong source first hsource hfirst s hs (hc ▸ rfl)
  rw [hindex] at hsource
  obtain rfl : grooveSong length = source := Option.some.inj hsource
  obtain ⟨rows', hrows', hplays⟩ := hall s hs
  obtain rfl := Except.ok.inj (hrows.symm.trans hrows')
  obtain ⟨played, hplayed, row', hrow', hplays⟩ :=
    Stream.exists_firstPass (hplays 0) (List.getElem?_eq_some_iff.1 hrow).1
  obtain rfl := Option.some.inj (hrow.symm.trans hrow')
  refine Pace.PlaysEntry.unique ?_ (hfound rows hrows' index row hrow played hplayed)
  cases kernel with
  | extended => exact hplays.selected (hc ▸ rfl) rfl
  | classic => exact ⟨first, by rw [Pace.Plays, hplays.record rfl], hentry⟩

/-- **On a kernel without grooves, and where a groove starts at a position without rows, another
groove plays** than the one of the position. -/
theorem not_playsGrooves : ¬ PlaysGrooves { kernel := .classic } (grooveProject none) ∧
    ¬ PlaysGrooves {} (grooveProject (some 0)) := by
  constructor
  · intro h
    exact absurd (h.same rows_grooveSong (by decide) 1 rfl) (by decide)
  · intro h
    exact absurd (h.same rows_rowlessGroove (by decide) 1 rfl) (by decide)

end Compile

end Chiptune
