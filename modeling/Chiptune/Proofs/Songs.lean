import Chiptune.Compile
import Chiptune.Proofs.Results
import Chiptune.Proofs.Streams
import Chiptune.Proofs.Twins

/-!
# Where the streams of a compile come from

`Compile.generate` gives the songs that were selected, each with one stream for every channel of the
project, and every stream is what `Stream.generate` gave for it, in tables that the final ones
extend (`Compile.generate_ok`). A song that was selected twice gives the same streams both times
(`FromSong.streams_eq`). The tables that a stream is generated from are sound (`generate_sound`).

A compile first prepares what its songs share (`prepare_ok`), and then generates the songs one after
the other (`addSongs_ok`), with their names and tempos in the records (`addSongs_records`);
`generate_iff` puts both parts together.
-/

set_option autoImplicit false

namespace Chiptune.Compile

variable {o : Options} {p : Project} {slots : Slots} {arpeggios : List Nat}

/-! ## Instruments and arpeggios -/

theorem faults_ok {α : Type} {step : Except Fault α} {a : α} (h : faults step = .ok a) :
    step = .ok a := by
  cases step with
  | error e => cases h
  | ok b =>
    cases h
    rfl

theorem extends_addEnvelope {e : Option Envelope} {kind : EnvelopeKind} {kernel : Kernel}
    {t t' : Tables} {index : Nat} (h : t.addEnvelope e kind kernel = .ok (index, t')) :
    t.Extends t' := by
  unfold Tables.addEnvelope at h
  split at h
  · cases h
    exact .refl _
  · obtain ⟨⟨curve, log⟩, -, h⟩ := bind_ok h
    have hlog : t.Extends { t with log } := t.extends_logging fun _ => log
    simp only at h
    split at h
    · cases h
      exact hlog.trans (Tables.extends_addCurve _ _ _)
    · cases h
      exact hlog

theorem extends_addInstruments {kernel : Kernel} {index : Nat} {instruments : List Instrument}
    {t t' : Tables} {w w' : WaveTables} {records : List (Option InstrumentRecord)}
    (h : addInstruments kernel slots index instruments t w = .ok (records, t', w')) :
    t.Extends t' := by
  induction instruments generalizing index t w records with
  | nil =>
    cases h
    exact .refl _
  | cons i rest ih =>
    unfold addInstruments at h
    split at h
    · obtain ⟨⟨others, u, x⟩, hothers, h⟩ := bind_ok h
      cases h
      exact ih hothers
    · obtain ⟨⟨curves, u⟩, hcurves, h⟩ := bind_ok h
      obtain ⟨⟨others, u', x⟩, hothers, h⟩ := bind_ok h
      cases h
      obtain ⟨⟨volume, t₁⟩, hvolume, hcurves⟩ := bind_ok hcurves
      obtain ⟨⟨arpeggio, t₂⟩, harpeggio, hcurves⟩ := bind_ok hcurves
      obtain ⟨⟨pitch, t₃⟩, hpitch, hcurves⟩ := bind_ok hcurves
      obtain ⟨⟨duty, t₄⟩, hduty, hcurves⟩ := bind_ok hcurves
      cases hcurves
      have hfour := ((extends_addEnvelope hvolume).trans (extends_addEnvelope harpeggio)).trans
        ((extends_addEnvelope hpitch).trans (extends_addEnvelope hduty))
      exact (hfour.trans (Tables.extends_logging _ fun _ => _)).trans (ih hothers)

theorem extends_addArpeggios {kernel : Kernel} {as : List Arpeggio} {t t' : Tables}
    {indices : List Nat} (h : addArpeggios kernel as t = .ok (indices, t')) : t.Extends t' := by
  induction as generalizing t indices with
  | nil =>
    cases h
    exact .refl _
  | cons a rest ih =>
    obtain ⟨⟨index, u⟩, hindex, h⟩ := bind_ok h
    obtain ⟨⟨others, u'⟩, hothers, h⟩ := bind_ok h
    cases h
    exact (extends_addEnvelope hindex).trans (ih hothers)

/-! ## Songs -/

/-- The stream is what was generated for its channel from tables between two given ones. -/
def Generates (job : Channel → Stream.Job) (t t' : Tables) (s : ChannelStream) : Prop :=
  ∃ u u', Stream.generate (job s.channel) u = (.ok s.tokens, u') ∧ t.Extends u ∧ u'.Extends t'

theorem Generates.mono {job : Channel → Stream.Job} {t t' u u' : Tables} {s : ChannelStream}
    (h : Generates job t t' s) (hu : u.Extends t) (hu' : t'.Extends u') : Generates job u u' s := by
  obtain ⟨w, w', hw, hfrom, hto⟩ := h
  exact ⟨w, w', hw, hu.trans hfrom, hto.trans hu'⟩

theorem addChannels_ok {job : Channel → Stream.Job} {channels : List Channel} {t t' : Tables}
    {streams : List ChannelStream} (h : addChannels job channels t = .ok (streams, t')) :
    streams.map (·.channel) = channels ∧ t.Extends t' ∧
      ∀ s ∈ streams, Generates job t t' s := by
  induction channels generalizing t streams with
  | nil =>
    cases h
    exact ⟨rfl, .refl _, by simp⟩
  | cons channel rest ih =>
    rw [addChannels] at h
    obtain ⟨tokens, htokens, h⟩ := bind_ok h
    obtain ⟨⟨others, u⟩, hothers, h⟩ := bind_ok h
    cases h
    have hgenerate : Stream.generate (job channel) t = (.ok tokens, _) := Prod.ext htokens rfl
    obtain ⟨hchannels, hextends, hall⟩ := ih hothers
    have hfirst := Stream.extends_generate hgenerate
    refine ⟨by simp [hchannels], hfirst.trans hextends, ?_⟩
    refine List.forall_mem_cons.2 ⟨⟨t, _, hgenerate, .refl t, hextends⟩, fun s hs => ?_⟩
    exact (hall s hs).mono hfirst (.refl _)

/-- What a song of the project gives: a stream for each channel, between two tables. -/
structure FromSong (o : Options) (p : Project) (slots : Slots) (arpeggios : List Nat)
    (t t' : Tables) (song : SongData) : Prop where
  channels : song.streams.map (·.channel) = p.channels
  streams : ∃ source patches log log', p.songs[song.index]? = some source ∧
    songPatches p source log = .ok (patches, log') ∧ ∀ s ∈ song.streams,
      Generates (streamJob o p slots arpeggios song.index source patches) t t' s

theorem FromSong.mono {t t' u u' : Tables} {song : SongData}
    (h : FromSong o p slots arpeggios t t' song) (hu : u.Extends t) (hu' : t'.Extends u') :
    FromSong o p slots arpeggios u u' song := by
  obtain ⟨source, patches, log, log', hsource, hpatches, hall⟩ := h.streams
  exact ⟨h.channels, source, patches, log, log', hsource, hpatches,
    fun s hs => (hall s hs).mono hu hu'⟩

/-- The patches of a song do not depend on the warnings. -/
theorem songPatches_log {source : Song} {log log' after after' : Log}
    {patches patches' : Option PatchTimeline}
    (h : songPatches p source log = .ok (patches, after))
    (h' : songPatches p source log' = .ok (patches', after')) : patches = patches' := by
  unfold songPatches at h h'
  split at h
  · rename_i huses
    rw [if_pos huses] at h'
    obtain ⟨⟨timeline, _⟩, htimeline, h⟩ := bind_ok h
    obtain ⟨⟨timeline', _⟩, htimeline', h'⟩ := bind_ok h'
    cases h
    cases h'
    obtain ⟨loads, hloads, htimeline⟩ := bind_ok htimeline
    obtain ⟨loads', hloads', htimeline'⟩ := bind_ok htimeline'
    cases htimeline
    cases htimeline'
    rw [Except.ok.inj (hloads.symm.trans hloads')]
  · rename_i huses
    rw [if_neg huses] at h'
    cases h
    cases h'
    rfl

/-- Lists with the same keys are equal if their elements of equal keys are. -/
theorem eq_of_map_eq {α β : Type} {f : α → β} {xs ys : List α} (h : xs.map f = ys.map f)
    (heq : ∀ x ∈ xs, ∀ y ∈ ys, f x = f y → x = y) : xs = ys := by
  induction xs generalizing ys with
  | nil =>
    cases ys with
    | nil => rfl
    | cons y ys => cases h
  | cons x xs ih =>
    cases ys with
    | nil => cases h
    | cons y ys =>
      obtain ⟨hxy, hrest⟩ := List.cons.inj h
      rw [heq x List.mem_cons_self y List.mem_cons_self hxy, ih hrest fun x hx y hy =>
        heq x (List.mem_cons_of_mem _ hx) y (List.mem_cons_of_mem _ hy)]

/-- **A song that is generated twice gives the same streams both times.** -/
theorem FromSong.streams_eq {t t' : Tables} {song song' : SongData}
    (ht : t.grooves.Indexed) (h : FromSong o p slots arpeggios t t' song)
    (h' : FromSong o p slots arpeggios t t' song') (hindex : song.index = song'.index) :
    song.streams = song'.streams := by
  obtain ⟨source, patches, _, _, hsource, hpatches, hall⟩ := h.streams
  obtain ⟨source', patches', _, _, hsource', hpatches', hall'⟩ := h'.streams
  rw [← hindex] at hsource' hall'
  obtain rfl := Option.some.inj (hsource.symm.trans hsource')
  obtain rfl := songPatches_log hpatches hpatches'
  refine eq_of_map_eq (h.channels.trans h'.channels.symm) fun s hs s' hs' hchannel => ?_
  obtain ⟨u, u', hgenerate, hfrom, hto⟩ := hall s hs
  obtain ⟨x, x', hgenerate', hfrom', hto'⟩ := hall' s' hs'
  rw [← hchannel] at hgenerate'
  have htokens := Stream.generate_again (hfrom.grooves.indexed ht) (hfrom'.grooves.indexed ht)
    hgenerate hgenerate' hto hto'
  cases s
  cases s'
  cases hchannel
  cases htokens
  rfl

theorem addSong_ok {index : Nat} {t t' : Tables} {song : SongData}
    (h : addSong o p slots arpeggios index t = .ok (song, t')) :
    song.index = index ∧ t.Extends t' ∧ FromSong o p slots arpeggios t t' song := by
  unfold addSong at h
  split at h
  · cases h
  rename_i source hsource
  obtain ⟨log, -, h⟩ := bind_ok h
  obtain ⟨⟨patches, log'⟩, hpatches, h⟩ := bind_ok h
  obtain ⟨⟨streams, u⟩, hstreams, h⟩ := bind_ok h
  obtain ⟨hchannels, hextends, hall⟩ := addChannels_ok hstreams
  have hlog : t.Extends { t with log := log' } := t.extends_logging fun _ => log'
  have hend : u.Extends t' ∧ song.index = index ∧ song.streams = streams := by
    simp only at h
    split at h
    · cases h
      exact ⟨.refl _, rfl, rfl⟩
    · cases h
      exact ⟨u.extends_groove _, rfl, rfl⟩
  obtain ⟨hend, rfl, rfl⟩ := hend
  exact ⟨rfl, (hlog.trans hextends).trans hend, hchannels, source, patches, _, _, hsource, hpatches,
    fun s hs => (hall s hs).mono hlog hend⟩

theorem addSongs_ok {indices : List Nat} {t t' : Tables} {songs : List SongData}
    (h : addSongs o p slots arpeggios indices t = .ok (songs, t')) :
    songs.map (·.index) = indices ∧ t.Extends t' ∧
      ∀ song ∈ songs, FromSong o p slots arpeggios t t' song := by
  induction indices generalizing t songs with
  | nil =>
    cases h
    exact ⟨rfl, .refl _, by simp⟩
  | cons index rest ih =>
    obtain ⟨⟨song, u⟩, hsong, h⟩ := bind_ok h
    obtain ⟨⟨others, u'⟩, hothers, h⟩ := bind_ok h
    cases h
    obtain ⟨hindex, hfirst, hfrom⟩ := addSong_ok hsong
    obtain ⟨hindices, hextends, hall⟩ := ih hothers
    refine ⟨by simp [hindex, hindices], hfirst.trans hextends, ?_⟩
    exact List.forall_mem_cons.2 ⟨hfrom.mono (.refl _) hextends,
      fun song hmem => (hall song hmem).mono hfirst (.refl _)⟩

/-- **A song record is the one of a song of the project**: it has its name, and its speed or the
number of its groove. -/
structure RecordsSong (p : Project) (t : Tables) (song : SongData) (source : Song) : Prop where
  mem : p.songs[song.index]? = some source
  name : song.name = source.name
  speed : p.tempoMode = .speed → song.speed = source.speed ∧ song.groove = none
  groove : p.tempoMode = .groove → ∃ groove, song.groove = some groove ∧
    t.grooves.find? (Tables.grooveBytes source.groove) 0 = some groove

theorem RecordsSong.mono {t t' : Tables} {song : SongData} {source : Song}
    (h : RecordsSong p t song source) (ht : t.grooves.Indexed) (hextends : t.Extends t') :
    RecordsSong p t' song source where
  mem := h.mem
  name := h.name
  speed := h.speed
  groove hmode := by
    obtain ⟨groove, hsong, hfound⟩ := h.groove hmode
    exact ⟨groove, hsong, hextends.grooves.find? ht _ _ _ hfound⟩

/-- The groove that a song names is an entry. -/
theorem RecordsSong.entry {t : Tables} {song : SongData} {source : Song}
    (h : RecordsSong p t song source) :
    ∀ n ∈ song.groove, ∃ bytes, t.grooves.find? bytes 0 = some n := by
  intro n hn
  cases hmode : p.tempoMode with
  | speed =>
    rw [(h.speed hmode).2] at hn
    cases hn
  | groove =>
    obtain ⟨groove, hsong, hfound⟩ := h.groove hmode
    obtain rfl := Option.some.inj (hn.symm.trans hsong)
    exact ⟨_, hfound⟩

theorem addSong_records {index : Nat} {t t' : Tables} {song : SongData} (ht : t.grooves.Indexed)
    (h : addSong o p slots arpeggios index t = .ok (song, t')) :
    ∃ source, RecordsSong p t' song source := by
  unfold addSong at h
  split at h
  · cases h
  rename_i source hsource
  obtain ⟨log, -, h⟩ := bind_ok h
  obtain ⟨⟨patches, log'⟩, -, h⟩ := bind_ok h
  obtain ⟨⟨streams, u⟩, hstreams, h⟩ := bind_ok h
  obtain ⟨-, hextends, -⟩ := addChannels_ok hstreams
  refine ⟨source, ?_⟩
  cases hmode : p.tempoMode with
  | speed =>
    simp only [hmode] at h
    cases h
    exact ⟨hsource, rfl, fun _ => ⟨rfl, rfl⟩, by rw [hmode]; rintro ⟨⟩⟩
  | groove =>
    simp only [hmode] at h
    cases h
    refine ⟨hsource, rfl, by rw [hmode]; rintro ⟨⟩, fun _ => ⟨_, rfl, ?_⟩⟩
    exact UniqueTable.find?_intern (hextends.grooves.indexed ht) _ 0

theorem addSongs_records {indices : List Nat} {t t' : Tables} {songs : List SongData}
    (ht : t.grooves.Indexed)
    (h : addSongs o p slots arpeggios indices t = .ok (songs, t')) :
    ∀ song ∈ songs, ∃ source, RecordsSong p t' song source := by
  induction indices generalizing t songs with
  | nil =>
    cases h
    exact fun _ hsong => absurd hsong List.not_mem_nil
  | cons index rest ih =>
    obtain ⟨⟨first, u⟩, hfirst, h⟩ := bind_ok h
    obtain ⟨⟨others, u'⟩, hothers, h⟩ := bind_ok h
    cases h
    have hu := (addSong_ok hfirst).2.1.grooves.indexed ht
    obtain ⟨source, hrecords⟩ := addSong_records ht hfirst
    exact List.forall_mem_cons.2
      ⟨⟨source, hrecords.mono hu (addSongs_ok hothers).2.1⟩, ih hu hothers⟩

/-! ## The whole compile -/

/-- What is generated from a project before its songs. -/
structure Prepared where
  slots : Slots
  records : List (Option InstrumentRecord)
  waves : WaveTables
  arpeggios : List Nat
  tables : Tables

/-- Check a project and generate what its songs share. -/
def prepare (o : Options) (p : Project) : Except Error Prepared := do
  checkExpansions o.kernel p
  checkMappings p
  let (checked, log) := checkSamples p o.sampleBase {}
  checked
  let (slots, log) := Slots.assign p o.kernel log
  let (records, tables, waves) ← faults (addInstruments o.kernel slots 0 p.instruments { log } {})
  let (arpeggios, tables) ← faults (addArpeggios o.kernel p.arpeggios tables)
  .ok { slots, records, waves, arpeggios, tables }

/-- What is generated, with some songs and the tables behind them. -/
def Prepared.generated (r : Prepared) (songs : List SongData) (tables : Tables) : Generated :=
  { slots := r.slots, records := r.records, waves := r.waves, tables, songs }

/-- **A project is generated in two parts**: what its songs share, and the selected songs. -/
theorem generate_iff {g : Generated} : generate o p = .ok g ↔
    ∃ r selected songs tables, prepare o p = .ok r ∧ selectedSongs o p = .ok selected ∧
      addSongs o p r.slots r.arpeggios selected r.tables = .ok (songs, tables) ∧
      g = r.generated songs tables := by
  unfold generate prepare
  generalize checkSamples p o.sampleBase {} = checked
  obtain ⟨checked, log⟩ := checked
  simp only
  generalize Slots.assign p o.kernel log = assigned
  obtain ⟨slots, log⟩ := assigned
  simp only
  constructor
  · intro h
    obtain ⟨_, hexpansions, h⟩ := bind_ok h
    obtain ⟨selected, hselected, h⟩ := bind_ok h
    obtain ⟨_, hmappings, h⟩ := bind_ok h
    obtain ⟨_, hchecked, h⟩ := bind_ok h
    obtain ⟨⟨records, tables, waves⟩, hinstruments, h⟩ := bind_ok h
    obtain ⟨⟨arpeggios, tables'⟩, harpeggios, h⟩ := bind_ok h
    obtain ⟨⟨songs, tables''⟩, hsongs, h⟩ := bind_ok h
    cases h
    refine ⟨⟨slots, records, waves, arpeggios, tables'⟩, selected, songs, tables'', ?_, hselected,
      hsongs, rfl⟩
    simp only [hexpansions, hmappings, hchecked, hinstruments, harpeggios, bind, Except.bind]
  · rintro ⟨r, selected, songs, tables'', h, hselected, hsongs, rfl⟩
    obtain ⟨_, hexpansions, h⟩ := bind_ok h
    obtain ⟨_, hmappings, h⟩ := bind_ok h
    obtain ⟨_, hchecked, h⟩ := bind_ok h
    obtain ⟨⟨records, tables, waves⟩, hinstruments, h⟩ := bind_ok h
    obtain ⟨⟨arpeggios, tables'⟩, harpeggios, h⟩ := bind_ok h
    cases h
    simp only [hexpansions, hselected, hmappings, hchecked, hinstruments, harpeggios, hsongs, bind,
      Except.bind]
    rfl

/-- What a project is prepared from. -/
theorem prepare_ok {r : Prepared} (h : prepare o p = .ok r) :
    checkMappings p = .ok () ∧ (checkSamples p o.sampleBase {}).1 = .ok () ∧
      ∃ log log' t, Slots.assign p o.kernel log = (r.slots, log') ∧
        addInstruments o.kernel r.slots 0 p.instruments { log := log' } {} =
          .ok (r.records, t, r.waves) ∧
        addArpeggios o.kernel p.arpeggios t = .ok (r.arpeggios, r.tables) := by
  obtain ⟨_, _, h⟩ := bind_ok h
  obtain ⟨_, hmappings, h⟩ := bind_ok h
  obtain ⟨_, hsamples, h⟩ := bind_ok h
  obtain ⟨⟨records, tables, waves⟩, hinstruments, h⟩ := bind_ok h
  obtain ⟨⟨arpeggios, tables'⟩, harpeggios, h⟩ := bind_ok h
  cases h
  exact ⟨hmappings, hsamples, _, _, tables, rfl, faults_ok hinstruments, faults_ok harpeggios⟩

theorem extends_prepare {r : Prepared} (h : prepare o p = .ok r) :
    ({} : Tables).Extends r.tables := by
  obtain ⟨-, -, -, log, t, -, hinstruments, harpeggios⟩ := prepare_ok h
  have hlog : ({} : Tables).Extends { log } := Tables.extends_logging {} fun _ => log
  exact (hlog.trans (extends_addInstruments hinstruments)).trans (extends_addArpeggios harpeggios)

/-- **The songs of a compile are those that were selected**, with streams from the generator. -/
theorem generate_ok {g : Generated} (h : generate o p = .ok g) :
    selectedSongs o p = .ok (g.songs.map (·.index)) ∧
      ∃ arpeggios t, ({} : Tables).Extends t ∧
        ∀ song ∈ g.songs, FromSong o p g.slots arpeggios t g.tables song := by
  obtain ⟨r, selected, songs, tables, hprepare, hselected, hsongs, rfl⟩ := generate_iff.1 h
  obtain ⟨hindices, -, hall⟩ := addSongs_ok hsongs
  exact ⟨hselected.trans (congrArg _ hindices.symm), r.arpeggios, r.tables,
    extends_prepare hprepare, hall⟩

/-- The records of a compile are those of songs of the project. -/
theorem generate_records {g : Generated} (h : generate o p = .ok g) :
    ∀ song ∈ g.songs, ∃ source, RecordsSong p g.tables song source := by
  obtain ⟨r, selected, songs, tables, hprepare, -, hsongs, rfl⟩ := generate_iff.1 h
  exact addSongs_records ((extends_prepare hprepare).grooves.indexed UniqueTable.indexed_empty)
    hsongs

/-- **Every channel of a compile is generated from sound tables.** -/
theorem generate_sound {g : Generated} (h : generate o p = .ok g) {song : SongData}
    (hsong : song ∈ g.songs) {s : ChannelStream} (hs : s ∈ song.streams) :
    ∃ arpeggios source patches u u', p.songs[song.index]? = some source ∧ u.Sound ∧
      Stream.generate (streamJob o p g.slots arpeggios song.index source patches s.channel) u =
        (.ok s.tokens, u') := by
  obtain ⟨-, arpeggios, t, hstart, hall⟩ := generate_ok h
  obtain ⟨source, patches, -, -, hsource, -, hgenerates⟩ := (hall song hsong).streams
  obtain ⟨u, u', hgenerate, hfrom, -⟩ := hgenerates s hs
  exact ⟨arpeggios, source, patches, u, u', hsource,
    (hstart.trans hfrom).sound Tables.sound_default, hgenerate⟩

end Chiptune.Compile
