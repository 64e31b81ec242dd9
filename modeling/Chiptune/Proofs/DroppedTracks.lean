import Chiptune.Proofs.Playback
import Chiptune.Proofs.Skeleton
import Chiptune.Proofs.Warnings

/-!
# Tracks that a project drops

A project plays the tracks of its channels. Of the other tracks a compile reads the speeds, and it
warns about some of them. Without them it gives the same data, if the rows keep their speeds or the
speeds are not used.

* `Compile.compile_keeps`: **tracks that are not played do not change the data** if the rows keep
  their speeds.
* `Compile.compile_removeTrack`: a track of a channel that the project does not have can be removed.
* `Compile.not_compile_removeTrack`: it cannot if it sets a speed, which the song then takes.
-/

set_option autoImplicit false

namespace Chiptune

/-! ## Songs with other tracks -/

namespace Song

/-- The song with other tracks. -/
def withTracks (s : Song) (tracks : List Track) : Song := { s with tracks }

variable (s : Song) (tracks : List Track)

theorem rowsFrom_withTracks (track : Option Track) (count position room : Nat) (done : Array Row) :
    (s.withTracks tracks).rowsFrom track count position room done =
      s.rowsFrom track count position room done := by
  induction count generalizing position room done with
  | zero => rfl
  | succ count ih =>
    rw [rowsFrom, rowsFrom]
    simp only [ih]
    rfl

/-- Which rows a track gives does not depend on the other tracks. -/
theorem rows_withTracks (track : Option Track) :
    (s.withTracks tracks).rows track = s.rows track :=
  congrArg (Except.map Array.toList) (s.rowsFrom_withTracks tracks track s.length 0 0 #[])

theorem places_withTracks : (s.withTracks tracks).places = s.places := by
  have hfrom : ∀ count position,
      (s.withTracks tracks).placesFrom count position = s.placesFrom count position := by
    intro count
    induction count with
    | zero => exact fun _ => rfl
    | succ count ih =>
      intro position
      rw [placesFrom, placesFrom, ih]
      rfl
  exact hfrom s.length 0

theorem framesPerRow_withTracks : framesPerRow (s.withTracks tracks) = framesPerRow s := by
  have hgroove : ∀ position, (s.withTracks tracks).grooveAt position = s.grooveAt position := by
    intro position
    induction position with
    | zero => rfl
    | succ position ih =>
      rw [grooveAt, grooveAt, ih]
      rfl
  funext speed mode machine position
  unfold framesPerRow
  rw [hgroove]
  rfl

/-! ### Speeds -/

/-- Add the speeds that a track sets to those of the tracks before it. -/
def addSpeeds (speeds : List (Option UInt8)) (t : Track) : Except Error (List (Option UInt8)) := do
  let rows ← s.rows (some t)
  .ok (List.zipWith (fun speed row => speed <|> row.note.bind (·.speed)) speeds rows)

/-- The speed that the tracks of a song set on each row. -/
def rowSpeeds : Except Error (List (Option UInt8)) := s.speeds s.places.length

theorem rowSpeeds_eq :
    s.rowSpeeds = s.tracks.foldlM s.addSpeeds (List.replicate s.places.length none) := rfl

theorem rowSpeeds_withTracks : (s.withTracks tracks).rowSpeeds =
    tracks.foldlM s.addSpeeds (List.replicate s.places.length none) := by
  have hadd : (s.withTracks tracks).addSpeeds = s.addSpeeds := by
    funext speeds t
    unfold addSpeeds
    rw [rows_withTracks]
  rw [rowSpeeds_eq, hadd, places_withTracks]
  rfl

variable {s tracks}

theorem speeds_of_rows {track : Option Track} {rows : List Row} (h : s.rows track = .ok rows) :
    s.speeds rows.length = s.rowSpeeds := by
  rw [rowSpeeds, length_rows h]

/-- Some of the tracks of a song that has speeds have them too. -/
theorem exists_rowSpeeds {speeds : List (Option UInt8)} (hmem : ∀ t ∈ tracks, t ∈ s.tracks)
    (h : s.rowSpeeds = .ok speeds) : ∃ speeds', (s.withTracks tracks).rowSpeeds = .ok speeds' := by
  rw [rowSpeeds_withTracks]
  refine foldlM_succeeds (fun t ht speeds => ?_) _
  obtain ⟨before, after, hstep⟩ := exists_of_foldlM_ok h (hmem t ht)
  obtain ⟨rows, hrows, -⟩ := bind_ok hstep
  exact ⟨_, by rw [addSpeeds, hrows]; rfl⟩

/-- The cells that a track plays set no speed. -/
def SetsNoSpeed (s : Song) (t : Track) : Prop :=
  ∀ rows, s.rows (some t) = .ok rows → ∀ row ∈ rows, row.note.bind (·.speed) = none

theorem length_addSpeeds {speeds speeds' : List (Option UInt8)} {t : Track}
    (h : s.addSpeeds speeds t = .ok speeds') (hlength : speeds.length = s.places.length) :
    speeds'.length = s.places.length := by
  obtain ⟨rows, hrows, h⟩ := bind_ok h
  cases h
  rw [List.length_zipWith, hlength, length_rows hrows, Nat.min_self]

/-- There is a speed, or none, for every row. -/
theorem length_rowSpeeds {speeds : List (Option UInt8)} (h : s.rowSpeeds = .ok speeds) :
    speeds.length = s.places.length :=
  foldlM_keeps (P := fun speeds => speeds.length = s.places.length)
    (fun _ _ _ hlength hstep => length_addSpeeds hstep hlength) h List.length_replicate

theorem SetsNoSpeed.addSpeeds {speeds speeds' : List (Option UInt8)} {t : Track}
    (ht : s.SetsNoSpeed t) (h : s.addSpeeds speeds t = .ok speeds')
    (hlength : speeds.length = s.places.length) : speeds' = speeds := by
  obtain ⟨rows, hrows, h⟩ := bind_ok h
  cases h
  apply List.ext_getElem
  · rw [List.length_zipWith, hlength, length_rows hrows, Nat.min_self]
  · intro i hi hi'
    rw [List.length_zipWith] at hi
    have hnone := ht rows hrows rows[i] (List.getElem_mem (by omega))
    rw [List.getElem_zipWith, hnone]
    cases speeds[i] <;> rfl

/-- Without a track that sets none the rows keep their speeds. -/
theorem SetsNoSpeed.rowSpeeds {front back : List Track} {t : Track}
    {speeds : List (Option UInt8)} (ht : s.SetsNoSpeed t) (htracks : s.tracks = front ++ t :: back)
    (h : s.rowSpeeds = .ok speeds) : (s.withTracks (front ++ back)).rowSpeeds = .ok speeds := by
  rw [rowSpeeds_eq, htracks, List.foldlM_append] at h
  obtain ⟨before, hbefore, h⟩ := bind_ok h
  rw [List.foldlM_cons] at h
  obtain ⟨after, hafter, hback⟩ := bind_ok h
  have hlength : before.length = s.places.length :=
    foldlM_keeps (P := fun speeds => speeds.length = s.places.length)
      (fun _ _ _ hlength hstep => length_addSpeeds hstep hlength) hbefore List.length_replicate
  rw [ht.addSpeeds hafter hlength] at hback
  rw [rowSpeeds_withTracks, List.foldlM_append, hbefore]
  exact hback

/-! ### Tracks that are played -/

/-- Tracks of a song that include all that a project plays, and all speeds that it uses. -/
structure Keeps (p : Project) (s : Song) (tracks : List Track) : Prop where
  mem : ∀ t ∈ tracks, t ∈ s.tracks
  track : ∀ channel ∈ p.channels, (s.withTracks tracks).track channel = s.track channel
  speeds : p.tempoMode = .speed → ∀ speeds, s.rowSpeeds = .ok speeds →
    (s.withTracks tracks).rowSpeeds = .ok speeds

variable {p : Project}

theorem Keeps.refl : s.Keeps p s.tracks := ⟨fun _ ht => ht, fun _ _ => rfl, fun _ _ h => h⟩

/-- A track of a channel that the project does not have is not played. -/
theorem keeps_remove {front back : List Track} {t : Track} (htracks : s.tracks = front ++ t :: back)
    (ht : p.hasChannel t.channel = false) (hspeeds : p.tempoMode = .speed → ∀ speeds,
      s.rowSpeeds = .ok speeds → (s.withTracks (front ++ back)).rowSpeeds = .ok speeds) :
    s.Keeps p (front ++ back) where
  mem := by
    intro other hother
    rw [htracks]
    simp only [List.mem_append, List.mem_cons] at hother ⊢
    tauto
  track := by
    intro channel hchannel
    have hne : (t.channel == channel) = false := by
      rw [beq_eq_false_iff_ne]
      rintro rfl
      rw [(List.mem_filter.1 hchannel).2] at ht
      cases ht
    simp only [Song.track, withTracks, htracks, List.find?_append, List.find?_cons, hne]
  speeds := hspeeds

end Song

/-! ## Channels -/

namespace Stream

/-- The job of a project with other songs, for a song with other tracks. -/
def Job.within (job : Job) (songs : List Song) (tracks : List Track) : Job :=
  { job with project := { job.project with songs }, song := job.song.withTracks tracks }

variable {job : Job} {songs : List Song} {tracks : List Track}

/-- A note reads the song for the length of its rows only. -/
theorem pitchedNote_within (v : Voice) (row : Row) (rest : List Row) (note : Note)
    (value : UInt8) : v.pitchedNote (job.within songs tracks) row rest note value =
      v.pitchedNote job row rest note value := by
  have hframes : framesPerRow (job.within songs tracks).song = framesPerRow job.song :=
    job.song.framesPerRow_withTracks tracks
  have hstep : ∀ (v : Voice) (source target : UInt8),
      v.slideStepAt (job.within songs tracks) row rest source target =
        v.slideStepAt job row rest source target := by
    intro v source target
    unfold Voice.slideStepAt
    rw [hframes]
    rfl
  unfold Voice.pitchedNote
  simp only [hstep]
  rfl

/-- A row reads nothing of the tracks but its cell. -/
theorem processRow_within (v : Voice) (index : Nat) (row : Row) (speed : Option UInt8)
    (rest : List Row) : v.processRow (job.within songs tracks) index row speed rest =
      v.processRow job index row speed rest := by
  have hplay : ∀ (v : Voice) (note : Note),
      v.playValue (job.within songs tracks) index row rest note =
        v.playValue job index row rest note := by
    intro v note
    unfold Voice.playValue
    simp only [pitchedNote_within]
    rfl
  unfold Voice.processRow
  simp only [hplay]
  rfl

variable {rows : List Row} {loopAt : Option Nat} {speeds speeds' : List (Option UInt8)}

namespace Alike

variable (songs tracks) {v w : Voice}

theorem row (h : Alike job v w) : w.row = v.row := by
  obtain ⟨log, -⟩ := h
  rfl

theorem start (log : Log) (t : Tables) : Alike job (Voice.start job t)
    (Voice.start (job.within songs tracks) { t with log }) := by
  have hmode : (job.within songs tracks).project.tempoMode = job.project.tempoMode := rfl
  unfold Voice.start
  rw [hmode]
  cases job.project.tempoMode with
  | speed => exact ⟨log, fun _ => rfl⟩
  | groove => exact ⟨log, fun _ => rfl⟩

theorem markLoop (h : Alike job v w)
    (hspeeds : job.project.tempoMode = .speed → speeds' = speeds) :
    (markLoop (job.within songs tracks) rows speeds' w).1 = (markLoop job rows speeds v).1 ∧
      Alike job (markLoop job rows speeds v).2
        (markLoop (job.within songs tracks) rows speeds' w).2 := by
  have htold := h.speed
  obtain ⟨log, told, rfl⟩ := h.eq_relogged
  refine ⟨rfl, log, fun hmode => ?_⟩
  obtain rfl := hspeeds hmode
  obtain rfl : told = v.told.speed := htold hmode
  rfl

/-- A row gives the same pieces in states that are alike. -/
theorem runRow (h : Alike job v w) (hspeeds : job.project.tempoMode = .speed → speeds' = speeds)
    (index : Nat) (row : Row) {speed speed' : Option UInt8}
    (hspeed : job.project.tempoMode = .speed → speed' = speed) (rest : List Row) :
    Yields (fun x y => y.1 = x.1 ∧ Alike job x.2 y.2)
      (runRow job rows speeds loopAt index row speed rest v)
      (runRow (job.within songs tracks) rows speeds' loopAt index row speed' rest w) := by
  unfold Stream.runRow
  simp only [processRow_within]
  by_cases hloop : loopAt = some index
  · obtain ⟨hmark, hmarked⟩ := @markLoop job songs tracks rows speeds speeds' v w h hspeeds
    simp only [if_pos hloop]
    refine (hmarked.processRow index row hspeed rest).bind fun x y hxy => .ok ⟨?_, hxy.1.rerow []⟩
    rw [hmark, hxy.1.row, hxy.2]
  · simp only [if_neg hloop]
    refine (h.processRow index row hspeed rest).bind fun x y hxy => .ok ⟨?_, hxy.1.rerow []⟩
    rw [hxy.1.row, hxy.2]

/-- **A channel gives the same pieces from states that are alike**, row by row. -/
theorem runRows {index : Nat} {rest : List Row} {later later' : List (Option UInt8)}
    {done : List Piece} (h : Alike job v w)
    (hspeeds : job.project.tempoMode = .speed → speeds' = speeds)
    (hlater : job.project.tempoMode = .speed → later' = later) :
    Yields (fun x y => y.1 = x.1 ∧ Alike job x.2 y.2)
      (runRows job rows speeds loopAt index rest later done v)
      (runRows (job.within songs tracks) rows speeds' loopAt index rest later' done w) := by
  induction rest generalizing index later later' done v w with
  | nil => exact .ok ⟨rfl, h⟩
  | cons row rest ih =>
    -- a run carries its pieces along, so the step is taken apart by hand
    intro x hx
    rw [Stream.runRows] at hx ⊢
    split at hx
    · cases hx
    rename_i pieces u hrow
    have hspeed : job.project.tempoMode = .speed → later'.head?.join = later.head?.join :=
      fun hmode => by rw [hlater hmode]
    obtain ⟨⟨_, u'⟩, hrow', rfl, hu⟩ := h.runRow songs tracks hspeeds index row hspeed rest _ hrow
    rw [hrow']
    exact ih hu (fun hmode => by rw [hlater hmode]) x hx

theorem ending (h : Alike job v w) :
    Alike job (ending job loopAt v) (ending (job.within songs tracks) loopAt w) := by
  unfold Stream.ending
  split
  · exact h.issueAt _ _
  · exact h.issue _ _

theorem tables (h : Alike job v w) : ∃ log, w.tables = { v.tables with log } := by
  obtain ⟨log, -⟩ := h
  exact ⟨log, rfl⟩

end Alike

/-- **A channel gives the same stream without tracks that it does not play.** -/
theorem generate_within {t t' : Tables} {tokens : List Token} (log : Log)
    (htrack : (job.song.withTracks tracks).track job.channel = job.song.track job.channel)
    (hspeeds : ∀ speeds, job.song.rowSpeeds = .ok speeds →
      ∃ speeds', (job.song.withTracks tracks).rowSpeeds = .ok speeds' ∧
        (job.project.tempoMode = .speed → speeds' = speeds))
    (h : generate job t = (.ok tokens, t')) :
    ∃ log', generate (job.within songs tracks) { t with log } =
      (.ok tokens, { t' with log := log' }) := by
  obtain ⟨rows, speeds, loopAt, pieces, v, hrows, hsong, hloop, hrun, htokens, rfl⟩ :=
    generate_iff.1 h
  rw [Song.speeds_of_rows hrows] at hsong
  obtain ⟨speeds', hsong', hsame⟩ := hspeeds speeds hsong
  have hrows' : (job.within songs tracks).song.rows
      ((job.within songs tracks).song.track job.channel) = .ok rows := by
    rw [← hrows, ← htrack]
    exact job.song.rows_withTracks tracks _
  have hopening : Alike job (opening job rows t)
      (opening (job.within songs tracks) rows { t with log }) :=
    (Alike.start songs tracks log t).logging _ _
  obtain ⟨⟨_, w⟩, hrun', rfl, hw⟩ := hopening.runRows songs tracks hsame hsame _ hrun
  have hend := @Alike.ending job songs tracks loopAt v w hw
  obtain ⟨log', hlog'⟩ := hend.tables
  refine ⟨log', generate_iff.2 ⟨rows, speeds', loopAt, _, w, hrows',
    (Song.speeds_of_rows hrows').trans hsong', ?_, hrun', ?_, hlog'.symm⟩⟩
  · rw [hloop]
    exact loopRow_log ..
  · rw [hend.row]
    exact htokens

end Stream

/-! ## Layouts -/

namespace Layout

/-- The layout of a project with other songs, with other warnings. -/
def within (l : Layout) (songs : List Song) (log : Log) : Layout :=
  { l with project := { l.project with songs }, tables := { l.tables with log } }

variable (l : Layout) (songs : List Song) (log : Log)

theorem streamLines_within (song : Nat) (channel : String) (targets : List Nat) (offset : Nat)
    (reversed : List UInt8) (tokens : List Token) :
    (l.within songs log).streamLines song channel targets offset reversed tokens =
      l.streamLines song channel targets offset reversed tokens := by
  induction tokens generalizing offset reversed with
  | nil => rfl
  | cons token rest ih =>
    rw [streamLines, streamLines]
    simp only [ih]
    rfl

/-- A listing does not read the songs of the project or the warnings. -/
theorem lines_within : (l.within songs log).lines = l.lines := by
  have hstream : ∀ song s, (l.within songs log).stream song s = l.stream song s := by
    intro song s
    unfold stream
    simp only [streamLines_within]
    rfl
  have hsong : ∀ song, (l.within songs log).songStreams song = l.songStreams song := by
    intro song
    unfold songStreams
    rw [funext (hstream song.index)]
  unfold lines
  rw [funext hsong]
  rfl

end Layout

/-! ## Projects -/

/-- Songs of a project with other tracks, which include all that the project plays. -/
structure Project.Keeps (p : Project) (songs : List Song) : Prop where
  length : songs.length = p.songs.length
  song : ∀ (index : Nat) (s : Song), p.songs[index]? = some s →
    ∃ tracks, songs[index]? = some (s.withTracks tracks) ∧ s.Keeps p tracks

/-- One song keeps the tracks that are played, and the other songs keep all. -/
theorem Project.keeps_set {p : Project} {n : Nat} {s : Song} {tracks : List Track}
    (hs : p.songs[n]? = some s) (h : s.Keeps p tracks) :
    p.Keeps (p.songs.set n (s.withTracks tracks)) where
  length := List.length_set
  song := by
    intro index other hother
    by_cases hindex : n = index
    · subst hindex
      obtain rfl := Option.some.inj (hs.symm.trans hother)
      exact ⟨tracks, List.getElem?_set_self (List.getElem?_eq_some_iff.1 hs).1, h⟩
    · exact ⟨other.tracks, (List.getElem?_set_ne hindex).trans hother, .refl⟩

/-- Two compiles gave the same text, image and sizes; only their warnings may differ. -/
def Score.SameData (score score' : Score) : Prop :=
  score' = { score with
    warnings := score'.warnings
    report := { score.report with warnings := score'.report.warnings } }

namespace Compile

variable {o : Options} {p : Project} {songs : List Song} {tracks : List Track} {s : Song}

/-- Whether a track passes its check does not depend on the warnings. -/
theorem checkTrack_log {log after : Log} {t : Track} (h : checkTrack p s log t = .ok after)
    (log' : Log) : ∃ after', checkTrack p s log' t = .ok after' := by
  unfold checkTrack at h ⊢
  split at h
  · rename_i hplayed
    exact ⟨log', if_pos hplayed⟩
  · rename_i hplayed
    simp only [if_neg hplayed]
    split at h
    · split at h
      · rename_i huses
        exact ⟨_, if_pos huses⟩
      · cases h
    · exact ⟨_, rfl⟩

theorem checkTracks_keeps (h : s.Keeps p tracks) (log log' : Log) :
    Yields (fun _ _ => True) (s.tracks.foldlM (checkTrack p s) log)
      (tracks.foldlM (checkTrack { p with songs } (s.withTracks tracks)) log') := by
  intro after hcheck
  obtain ⟨after', hcheck'⟩ := foldlM_succeeds (fun t ht log' => by
    obtain ⟨before, behind, ht⟩ := exists_of_foldlM_ok hcheck (h.mem t ht)
    exact checkTrack_log ht log') log'
  exact ⟨after', hcheck', trivial⟩

/-- The channels load the same patches without tracks that they do not play. -/
theorem songPatches_keeps (h : s.Keeps p tracks) (log log' : Log) :
    Yields (fun x y => x.1 = y.1) (songPatches p s log)
      (songPatches { p with songs } (s.withTracks tracks) log') := by
  have hchannelLoads :
      PatchTimeline.channelLoads { p with songs } = PatchTimeline.channelLoads p := by
    funext current rows
    induction rows generalizing current with
    | nil => rfl
    | cons row rest ih =>
      rw [PatchTimeline.channelLoads, PatchTimeline.channelLoads]
      simp only [ih]
  have hloads : PatchTimeline.loadsOf { p with songs } (s.withTracks tracks) =
      PatchTimeline.loadsOf p s := by
    refine foldlM_congr (fun channel hchannel loads => ?_) []
    rw [h.track channel (List.mem_filter.1 hchannel).1, Song.rows_withTracks, hchannelLoads]
  refine .ite (fun _ => ?_) fun _ => .ok rfl
  rw [PatchTimeline.build, PatchTimeline.build, hloads]
  cases PatchTimeline.loadsOf p s with
  | error e => exact .error e _
  | ok loads => exact .ok rfl

variable {slots : Slots} {arpeggios : List Nat}

/-- The channels of a song give the same streams without tracks that are not played. -/
theorem addChannels_keeps {index : Nat} {patches : Option PatchTimeline} {channels : List Channel}
    {t : Tables} (h : s.Keeps p tracks) (hchannels : ∀ channel ∈ channels, channel ∈ p.channels)
    (log : Log) :
    Yields UpToLog (addChannels (streamJob o p slots arpeggios index s patches) channels t)
      (addChannels (streamJob o { p with songs } slots arpeggios index (s.withTracks tracks)
        patches) channels { t with log }) := by
  induction channels generalizing t log with
  | nil => exact .ok ⟨log, rfl⟩
  | cons channel rest ih =>
    obtain ⟨hchannel, hrest⟩ := List.forall_mem_cons.1 hchannels
    have hspeeds : ∀ speeds, s.rowSpeeds = .ok speeds → ∃ speeds',
        (s.withTracks tracks).rowSpeeds = .ok speeds' ∧
          (p.tempoMode = .speed → speeds' = speeds) := by
      intro speeds hsong
      obtain ⟨speeds', hspeeds'⟩ := Song.exists_rowSpeeds h.mem hsong
      exact ⟨speeds', hspeeds', fun hmode =>
        Except.ok.inj (hspeeds'.symm.trans (h.speeds hmode speeds hsong))⟩
    rw [addChannels, addChannels]
    cases hgenerate :
      Stream.generate (streamJob o p slots arpeggios index s patches channel) t with
    | mk result u =>
      cases result with
      | error e => exact .error e _
      | ok tokens =>
        obtain ⟨log', hsame⟩ := @Stream.generate_within _ songs tracks _ _ _ log
          (h.track channel hchannel) hspeeds hgenerate
        have hsame : Stream.generate (streamJob o { p with songs } slots arpeggios index
          (s.withTracks tracks) patches channel) { t with log } = _ := hsame
        rw [hsame]
        refine (ih hrest log').bind ?_
        rintro ⟨others, u'⟩ _ ⟨log'', rfl⟩
        exact .ok ⟨log'', rfl⟩

theorem addSong_keeps {index : Nat} {t : Tables} (h : p.Keeps songs) (log : Log) :
    Yields UpToLog (addSong o p slots arpeggios index t)
      (addSong o { p with songs } slots arpeggios index { t with log }) := by
  unfold addSong
  cases hsource : p.songs[index]? with
  | none => exact .error _ _
  | some source =>
    obtain ⟨tracks, hother, hkeeps⟩ := h.song index source hsource
    simp only [hother]
    refine (checkTracks_keeps hkeeps t.log log).bind fun after after' _ => ?_
    refine (songPatches_keeps hkeeps after after').bind ?_
    rintro ⟨patches, after⟩ ⟨_, after'⟩ rfl
    refine (addChannels_keeps hkeeps (fun _ hc => hc) after').bind ?_
    rintro ⟨streams, u⟩ _ ⟨log', rfl⟩
    cases p.tempoMode with
    | speed => exact .ok ⟨log', rfl⟩
    | groove => exact .ok ⟨log', rfl⟩

/-- **The songs of a compile are the same without tracks that are not played.** -/
theorem addSongs_keeps {indices : List Nat} {t : Tables} (h : p.Keeps songs) (log : Log) :
    Yields UpToLog (addSongs o p slots arpeggios indices t)
      (addSongs o { p with songs } slots arpeggios indices { t with log }) := by
  induction indices generalizing t log with
  | nil => exact .ok ⟨log, rfl⟩
  | cons index rest ih =>
    refine (addSong_keeps h log).bind ?_
    rintro ⟨song, u⟩ _ ⟨log', rfl⟩
    refine (ih log').bind ?_
    rintro ⟨others, u'⟩ _ ⟨log'', rfl⟩
    exact .ok ⟨log'', rfl⟩

theorem generate_keeps (h : p.Keeps songs) :
    Yields (fun g g' => ∃ log, g' = { g with tables := { g.tables with log } }) (generate o p)
      (generate o { p with songs }) := by
  intro g hg
  obtain ⟨r, selected, made, tables, hprepare, hselected, hmade, rfl⟩ := generate_iff.1 hg
  obtain ⟨_, hmade', log, rfl⟩ := addSongs_keeps h r.tables.log _ hmade
  refine ⟨_, generate_iff.2 ⟨r, selected, made, _, hprepare, ?_, hmade', rfl⟩, log, rfl⟩
  rw [← hselected, selectedSongs, selectedSongs, h.length]

/-- **Tracks that are not played do not change the data**: a project compiles to the same without
them. -/
theorem compile_keeps (h : p.Keeps songs) :
    Yields Score.SameData (compile o p) (compile o { p with songs }) := by
  refine (generate_keeps h).bind ?_
  rintro g _ ⟨log, rfl⟩
  have hlines : ∀ made, (({ g with tables := { g.tables with log } } : Generated).layout o
      { p with songs } made).lines = (g.layout o p made).lines :=
    fun made => (g.layout o p made).lines_within songs log
  simp only [hlines]
  generalize (g.songs.map (packSong o.kernel o.compression)).map Prod.fst = made
  cases faults (g.layout o p made).lines with
  | error e => exact .error e _
  | ok lines =>
    simp only [bind, Except.bind]
    cases Image.assemble lines o.dataBase with
    | error e => exact .error e _
    | ok image => exact .ok rfl

/-- **A track that is dropped can be removed**, if the rows keep their speeds without it or the
project has no speeds. -/
theorem compile_removeTrack {score : Score} {n : Nat} {song : Song} {front back : List Track}
    {t : Track} (h : compile o p = .ok score) (hsong : p.songs[n]? = some song)
    (htracks : song.tracks = front ++ t :: back) (hdropped : p.hasChannel t.channel = false)
    (hspeeds : p.tempoMode = .speed → ∀ speeds, song.rowSpeeds = .ok speeds →
      (song.withTracks (front ++ back)).rowSpeeds = .ok speeds) :
    ∃ score', compile o { p with
        songs := p.songs.set n (song.withTracks (front ++ back)) } = .ok score' ∧
      score.SameData score' :=
  compile_keeps (Project.keeps_set hsong (Song.keeps_remove htracks hdropped hspeeds)) score h

/-- Number of bytes of the music of a layout. -/
def musicSize (l : Layout) : Option Nat :=
  l.lines.toOption.bind fun lines =>
    (lines.foldlM Image.Draft.addLine { music := { base := l.dataBase } }).toOption.map
      (·.music.bytes.size)

/-- A project without curves compiles to as much music as its layout has. -/
theorem exists_compiled {size : Nat} (hcurves : (generate o p).toOption.map (·.tables.curves) =
      some (UniqueTable.withDefault Curve.default))
    (htest : (generate o p).toOption.any (fun g =>
      let l := packedLayout o p { g with
        tables := { g.tables with curves := ⟨#[Curve.default], defaultBuckets⟩ } }
      assembles l && musicSize l == some size) = true) :
    ∃ score, compile o p = .ok score ∧ score.image.music.length = size := by
  obtain ⟨g, hg, htest⟩ := @exists_of_buckets o p (fun g =>
    assembles (packedLayout o p g) && musicSize (packedLayout o p g) == some size) hcurves htest
  obtain ⟨hassembles, hsize⟩ := Bool.and_eq_true_iff.1 htest
  obtain ⟨score, hscore⟩ := compile_succeeds hg hassembles
  refine ⟨score, hscore, ?_⟩
  obtain ⟨g', lines, hg', hlines, himage⟩ := compile_ok hscore
  obtain rfl := Except.ok.inj (hg.symm.trans hg')
  obtain ⟨d, hd, hlength⟩ := Image.length_assemble himage
  have hsize : musicSize (packedLayout o p g) = some size := beq_iff_eq.1 hsize
  rw [musicSize, hlines] at hsize
  have hsize : (lines.foldlM Image.Draft.addLine
    { music := { base := o.dataBase } }).toOption.map (·.music.bytes.size) = some size := hsize
  rw [hd] at hsize
  exact hlength.trans (Option.some.inj hsize)

/-- A track of one cell. -/
def oneCell (channel : Channel) (cell : Note) : Track :=
  { channel, patterns := [{ notes := [cell] }], order := [some 0] }

/-- A song of two rows. -/
def twoRows (tracks : List Track) : Song :=
  { name := "tune", length := 1, patternLength := 2, tracks }

/-- A project with a song, in which the first N163 channel is the only one. -/
def oneWave (song : Song) : Project :=
  { name := "p", expansions := { n163 := true }, songs := [song] }

/-- A note that sets the speed. -/
def slowNote : Track := oneCell .square1 { row := 0, value := some (.pitch 36), speed := some 9 }

/-- A note on a channel beyond those of the project. -/
def lostNote : Track := oneCell .n163Wave2 { row := 1, value := some (.pitch 40) }

/-- A speed on a channel beyond those of the project. -/
def lostSpeed : Track := oneCell .n163Wave2 { row := 1, speed := some 3 }

theorem setsNoSpeed_lostNote : (twoRows [slowNote, lostNote]).SetsNoSpeed lostNote := by
  intro rows hrows row hrow
  have hall : ((twoRows [slowNote, lostNote]).rows (some lostNote)).toOption.all (fun rows =>
      rows.all fun row => (row.note.bind (·.speed)).isNone) = true := by
    decide +kernel
  rw [hrows] at hall
  simpa using List.all_eq_true.1 hall row hrow

/-- A note that is lost is not missed. -/
theorem compile_removeTrack_lostNote : ∃ score score',
    compile { compression := .off } (oneWave (twoRows [slowNote, lostNote])) = .ok score ∧
      compile { compression := .off } (oneWave (twoRows [slowNote])) = .ok score' ∧
      score.SameData score' := by
  obtain ⟨g, hg, hassembles⟩ := @exists_generated { compression := .off }
    (oneWave (twoRows [slowNote, lostNote])) rfl (by decide +kernel)
  obtain ⟨score, hscore⟩ := compile_succeeds hg hassembles
  obtain ⟨score', hscore', hsame⟩ := compile_removeTrack hscore (n := 0) rfl
    (show (twoRows [slowNote, lostNote]).tracks = [slowNote] ++ lostNote :: [] from rfl) rfl
    fun _ speeds hspeeds => setsNoSpeed_lostNote.rowSpeeds rfl hspeeds
  exact ⟨score, score', hscore, hscore', hsame⟩

/-- Not every track that is dropped can be removed: the speed on one slows the song down. -/
theorem not_compile_removeTrack : ¬ ∀ (o : Options) (p : Project) (score : Score) (n : Nat)
    (song : Song) (front back : List Track) (t : Track), compile o p = .ok score →
      p.songs[n]? = some song → song.tracks = front ++ t :: back →
      p.hasChannel t.channel = false →
      ∃ score', compile o { p with
          songs := p.songs.set n (song.withTracks (front ++ back)) } = .ok score' ∧
        score'.text = score.text ∧ score'.image = score.image := by
  intro hall
  obtain ⟨score, hscore, hsize⟩ := @exists_compiled { compression := .off }
    (oneWave (twoRows [lostSpeed])) 47 rfl (by decide +kernel)
  obtain ⟨other, hother, hsize'⟩ := @exists_compiled { compression := .off }
    (oneWave (twoRows [])) 44 rfl (by decide +kernel)
  obtain ⟨score', hscore', -, himage⟩ := hall _ _ score 0 _ [] [] lostSpeed hscore rfl rfl rfl
  obtain rfl := Except.ok.inj (hscore'.symm.trans hother)
  rw [himage, hsize] at hsize'
  cases hsize'

end Compile

end Chiptune
