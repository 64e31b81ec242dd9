import Chiptune.Proofs.Settings

/-!
# What a row has told the driver

A cell with a pitch loads its instrument and its arpeggio, then every cell sends the continuous
settings, and the other steps of a row change no setting (`Voice.Quiet`). So behind a cell the
driver was told all that the song asks for (`Answers`), for every state of the driver, and what no
cell changes stays what it was in the beginning (`Steady`).

* `Voice.replies_playValue`, `Voice.answers_processRow`: **what a row has told the driver**.
* `Answers.tuned`: a driver that has what it was told plays the row as the song asks for.
-/

set_option autoImplicit false

namespace Chiptune.Stream

variable {job : Job} {t : Tables} {d : Driver}

namespace Voice

/-! ## Steps that change no setting -/

/-- A step that changes no setting but the tempo. -/
structure Quiet (v v' : Voice) : Prop where
  row : ∃ is, v'.row = v.row ++ is ∧ ∀ i ∈ is, ∀ d : Driver, d.exec i = d
  told : ∃ speed groove, v'.told = { v.told with speed, groove }
  wanted : ∃ speed groove, v'.wanted = { v.wanted with speed, groove }

theorem Quiet.refl (v : Voice) : v.Quiet v :=
  ⟨⟨[], by simp⟩, ⟨_, _, rfl⟩, ⟨_, _, rfl⟩⟩

theorem Quiet.trans {v v' v'' : Voice} (h : v.Quiet v') (h' : v'.Quiet v'') : v.Quiet v'' := by
  obtain ⟨is, hr, his⟩ := h.row
  obtain ⟨js, hr', hjs⟩ := h'.row
  obtain ⟨_, _, ht⟩ := h.told
  obtain ⟨_, _, ht'⟩ := h'.told
  obtain ⟨_, _, hw⟩ := h.wanted
  obtain ⟨_, _, hw'⟩ := h'.wanted
  refine ⟨⟨is ++ js, by rw [hr', hr, List.append_assoc], ?_⟩, ⟨_, _, by rw [ht', ht]⟩,
    ⟨_, _, by rw [hw', hw]⟩⟩
  intro i hi
  rcases List.mem_append.1 hi with hi | hi
  · exact his i hi
  · exact hjs i hi

theorem Quiet.settings {v v' : Voice} (h : v.Quiet v') :
    v'.wanted.settings = v.wanted.settings := by
  obtain ⟨_, _, hw⟩ := h.wanted
  rw [hw]
  rfl

theorem Quiet.heard {v v' : Voice} (h : v.Quiet v') (hd : v.Heard t job d) :
    v'.Heard t job d := by
  obtain ⟨is, hr, his⟩ := h.row
  obtain ⟨_, _, ht⟩ := h.told
  obtain ⟨_, _, hw⟩ := h.wanted
  have hafter : ∀ d : Driver, d.after is = d := by
    intro d
    clear hr
    induction is generalizing d with
    | nil => rfl
    | cons i is ih =>
      rw [Driver.after, List.foldl_cons, his i List.mem_cons_self]
      exact ih (fun j hj => his j (List.mem_cons_of_mem _ hj)) d
  rw [Heard, ht, hw, hr, Driver.after_append, hafter]
  exact { hd with }

theorem quiet_logging (v : Voice) (change : Log → Log) : v.Quiet (v.logging change) :=
  ⟨⟨[], by simp [logging]⟩, ⟨_, _, rfl⟩, ⟨_, _, rfl⟩⟩

theorem quiet_clamped (v : Voice) (value low high : UInt8) (what : String) :
    v.Quiet (v.clamped value low high what).2 :=
  quiet_logging v _

theorem quiet_unsupported (v : Voice) (what : String) : v.Quiet (v.unsupported job what) :=
  quiet_logging v _

theorem quiet_lacking (v : Voice) (op : Op) : v.Quiet (v.lacking job op) := quiet_logging v _

theorem quiet_emit (v : Voice) {i : Instruction} (hi : ∀ d : Driver, d.exec i = d) :
    v.Quiet (v.emit i) :=
  ⟨⟨[i], rfl, by simpa using hi⟩, ⟨_, _, rfl⟩, ⟨_, _, rfl⟩⟩

theorem quiet_issue (v : Voice) {op : Op} {bytes : List UInt8}
    (hi : ∀ d : Driver, d.exec (.op op bytes []) = d) : v.Quiet (v.issue job op bytes) := by
  unfold issue
  split
  · exact quiet_emit v hi
  · exact quiet_logging v _

theorem quiet_wantTempo (v : Voice) (row : Row) (speed : Option UInt8) :
    v.Quiet (v.wantTempo job row speed) := by
  unfold wantTempo
  split
  · split
    · exact ⟨⟨[], by simp [clamped, logging]⟩, ⟨_, _, rfl⟩, ⟨_, _, rfl⟩⟩
    · exact .refl v
  · refine Quiet.trans ?_ (quiet_logging _ _)
    split
    · exact ⟨⟨[], by simp⟩, ⟨_, _, rfl⟩, ⟨_, _, rfl⟩⟩
    · exact .refl v

theorem quiet_syncTempo (v : Voice) : v.Quiet (v.syncTempo job) := by
  have hspeed : ∀ (d : Driver) b, d.exec (.op .speed [b] []) = d := fun _ _ => rfl
  have hgroove : ∀ (d : Driver) a, d.exec (.op .groove [] [a]) = d := fun _ _ => rfl
  unfold syncTempo
  split
  · simp only
    split
    · exact .refl v
    split
    · rename_i hsupports
      rw [issue, if_pos hsupports]
      exact ⟨⟨[_], rfl, by simp [hspeed]⟩, ⟨_, _, rfl⟩, ⟨_, _, rfl⟩⟩
    · exact quiet_logging v _
  · simp only
    split
    · exact .refl v
    split
    · rename_i hsupports
      rw [issueAt, if_pos hsupports]
      exact ⟨⟨[_], rfl, by simp [hgroove]⟩, ⟨_, _, rfl⟩, ⟨_, _, rfl⟩⟩
    · exact quiet_logging v _

theorem quiet_tempoOf (v : Voice) (row : Row) (speed : Option UInt8) :
    v.Quiet (v.tempoOf job row speed) := by
  unfold tempoOf
  split
  · exact (quiet_wantTempo v row speed).trans (quiet_syncTempo _)
  · exact quiet_wantTempo v row speed

theorem quiet_delays (v : Voice) (note : Note) : v.Quiet (v.delays job note) := by
  have hstep : ∀ (v : Voice) (op : Op), (∀ (d : Driver) b, d.exec (.op op [b] []) = d) →
      ∀ value, v.Quiet (v.withSome value fun v delay => v.issue job op [delay]) := by
    intro v op hop value
    cases value with
    | none => exact .refl v
    | some delay => exact quiet_issue v (hop · delay)
  exact (hstep v .noteDelay (fun _ _ => rfl) _).trans (hstep _ .cutDelay (fun _ _ => rfl) _)

theorem quiet_plainNote (v : Voice) (value : UInt8) : v.Quiet (v.plainNote job value) := by
  unfold plainNote
  split
  · exact quiet_emit v fun _ => rfl
  · exact quiet_issue v fun _ => rfl

theorem quiet_pitchedNote (v : Voice) (row : Row) (rest : List Row) (note : Note)
    (value : UInt8) : v.Quiet (v.pitchedNote job row rest note value) := by
  unfold pitchedNote
  simp only
  refine (quiet_clamped v value noteMin noteMax "Note").trans ?_
  split
  · exact quiet_plainNote _ _
  · rename_i target _
    refine (quiet_clamped _ target noteMin noteMax "Slide target").trans ?_
    split
    · exact (quiet_unsupported _ _).trans (quiet_plainNote _ _)
    split
    · exact (quiet_lacking _ _).trans (quiet_plainNote _ _)
    split
    · exact quiet_plainNote _ _
    · exact quiet_issue _ fun _ => rfl

/-- Only the sample channel has a delta counter. -/
theorem quiet_deltaCounter (v : Voice) (hc : job.channel ≠ .dpcm) (value : Option UInt8) :
    v.Quiet (v.withSome value (deltaCounter · job)) ∧
      v.tables.Extends (v.withSome value (deltaCounter · job)).tables := by
  have hsupports : job.channel.supportsDeltaCounter = false := by
    cases hchannel : job.channel <;> first | rfl | exact absurd hchannel hc
  cases value with
  | none => exact ⟨.refl v, .refl _⟩
  | some value =>
    simp only [withSome, deltaCounter, hsupports, Bool.not_false, if_true]
    exact ⟨quiet_unsupported v _, (sends_unsupported v _).tables⟩

end Voice

/-! ## One row -/

/-- The driver was told all that a cell and the settings behind it ask for. -/
structure Answers (note : Note) (s : Settings) (told : Told) : Prop where
  volume : told.volume = some s.volume
  finePitch : told.finePitch = some s.finePitch
  vibrato : told.vibrato = some s.vibrato
  duty : ∀ x, s.duty = some x → told.duty = some x
  fdsModSpeed : ∀ x, s.fdsModSpeed = some x → told.fdsModSpeed = some x
  fdsModDepth : ∀ x, s.fdsModDepth = some x → told.fdsModDepth = some x
  arpeggio : isPitched note = true → told.arpeggio = some note.arpeggio
  instrument : isPitched note = true → ∀ i, s.instrument = some i → told.instrument = some i

/-- Settings that no cell of a channel changes are what they were in the beginning. -/
structure Steady (cells : List Note) (told : Told) (s : Settings) : Prop where
  volume : (∀ n ∈ cells, n.volume = none) → told.volume = some initialVolume ∧
    s.volume = initialVolume
  finePitch : (∀ n ∈ cells, n.finePitch = none) → told.finePitch = some 0 ∧ s.finePitch = 0
  vibrato : (∀ n ∈ cells, n.vibrato = none) → told.vibrato = some none ∧ s.vibrato = none
  arpeggio : (∀ n ∈ cells, n.arpeggio = none) → told.arpeggio = some none
  duty : (∀ n ∈ cells, n.duty = none) → told.duty = none ∧ s.duty = none
  fdsModSpeed : (∀ n ∈ cells, n.fdsModSpeed = none) → told.fdsModSpeed = none ∧
    s.fdsModSpeed = none
  fdsModDepth : (∀ n ∈ cells, n.fdsModDepth = none) → told.fdsModDepth = none ∧
    s.fdsModDepth = none

/-- What the driver was told behind the continuous settings. -/
def Told.continuous (told : Told) (s : Settings) : Told :=
  { told with
    volume := some s.volume
    finePitch := some s.finePitch
    vibrato := some s.vibrato
    duty := s.duty <|> told.duty
    fdsModSpeed := s.fdsModSpeed <|> told.fdsModSpeed
    fdsModDepth := s.fdsModDepth <|> told.fdsModDepth }

theorem Steady.continuous {cells : List Note} {told : Told} {s : Settings}
    (h : Steady cells told s) : Steady cells (told.continuous s) s where
  volume hn := ⟨congrArg some (h.volume hn).2, (h.volume hn).2⟩
  finePitch hn := ⟨congrArg some (h.finePitch hn).2, (h.finePitch hn).2⟩
  vibrato hn := ⟨congrArg some (h.vibrato hn).2, (h.vibrato hn).2⟩
  arpeggio := h.arpeggio
  duty hn := ⟨by simp [Told.continuous, h.duty hn], (h.duty hn).2⟩
  fdsModSpeed hn := ⟨by simp [Told.continuous, h.fdsModSpeed hn], (h.fdsModSpeed hn).2⟩
  fdsModDepth hn := ⟨by simp [Told.continuous, h.fdsModDepth hn], (h.fdsModDepth hn).2⟩

theorem answers_continuous {note : Note} {told : Told} {s : Settings}
    (ha : isPitched note = true → told.arpeggio = some note.arpeggio)
    (hi : isPitched note = true → ∀ i, s.instrument = some i → told.instrument = some i) :
    Answers note s (told.continuous s) where
  volume := rfl
  finePitch := rfl
  vibrato := rfl
  duty x hx := by simp [Told.continuous, hx]
  fdsModSpeed x hx := by simp [Told.continuous, hx]
  fdsModDepth x hx := by simp [Told.continuous, hx]
  arpeggio := ha
  instrument := hi

/-- Settings behind a cell keep what no cell changes. -/
theorem Steady.after {cells : List Note} {told : Told} {s : Settings} (h : Steady cells told s)
    {note : Note} (hn : note ∈ cells) (channel : Channel) (i : Option Nat) :
    Steady cells told { s.after channel note with instrument := i } where
  volume hnone := ⟨(h.volume hnone).1, by
    simp only [Settings.after, hnone note hn, Option.map_none, Option.getD_none, ite_self,
      (h.volume hnone).2]⟩
  finePitch hnone := ⟨(h.finePitch hnone).1, by
    simp only [Settings.after, hnone note hn, Option.getD_none, ite_self, (h.finePitch hnone).2]⟩
  vibrato hnone := ⟨(h.vibrato hnone).1, by
    simp only [Settings.after, hnone note hn, Option.map_none, Option.getD_none, ite_self,
      (h.vibrato hnone).2]⟩
  arpeggio := h.arpeggio
  duty hnone := ⟨(h.duty hnone).1, by simp [Settings.after, hnone note hn, (h.duty hnone).2]⟩
  fdsModSpeed hnone := ⟨(h.fdsModSpeed hnone).1, by
    simp [Settings.after, hnone note hn, (h.fdsModSpeed hnone).2]⟩
  fdsModDepth hnone := ⟨(h.fdsModDepth hnone).1, by
    simp [Settings.after, hnone note hn, (h.fdsModDepth hnone).2]⟩

namespace Voice

/-- **What the driver was told behind a cell**, whatever its state was: all that the settings `s`
behind the cell ask for, and it has what it was told. -/
structure Replies (t : Tables) (job : Job) (note : Note) (v v' : Voice) (s : Settings) : Prop where
  settings : v'.wanted.settings = s
  answers : Answers note s v'.told
  steady : ∀ cells, note ∈ cells → Steady cells v.told v.wanted.settings → Steady cells v'.told s
  heard : ∀ d, v.Heard t job d → v'.Heard t job d

section

variable (hk : job.kernel = .extended)
include hk

/-- **The end of a row with a cell**: the continuous settings, and steps that change no setting. -/
theorem replies_settled {v u v' : Voice} {note : Note} (hu : v.syncContinuous job = .ok u)
    (hq : u.Quiet v') (ht : u.tables.Extends t)
    (ha : isPitched note = true → v.told.arpeggio = some note.arpeggio)
    (hi : isPitched note = true → ∀ i, v.wanted.instrument = some i →
      v.told.instrument = some i) :
    v.Replies t job note v' v.wanted.settings := by
  have htells := tells_syncContinuous hk hu ht
  obtain ⟨speed, groove, htold⟩ := hq.told
  have htold : v'.told = { v.told.continuous v.wanted.settings with speed, groove } := by
    rw [htold, htells.told_eq]
    rfl
  refine ⟨by rw [hq.settings, htells.wanted], ?_, fun cells _ hst => ?_,
    fun d hd => hq.heard (htells.heard d hd)⟩
  · rw [htold]
    exact { answers_continuous ha hi with }
  · rw [htold]
    exact { hst.continuous with }

/-- **A cell with a pitch**: its instrument and its arpeggio come before the continuous settings. -/
theorem replies_pitch {v u w x v' : Voice} {note : Note} {index : Nat} (hc : job.channel ≠ .dpcm)
    (hu : v.syncInstrument job note index = .ok u) (hw : u.syncArpeggio job note = .ok w)
    (hx : w.syncContinuous job = .ok x) (hq : x.Quiet v') (ht : x.tables.Extends t) :
    v.Replies t job note v'
      { v.wanted.settings with instrument := note.instrument <|> v.wanted.instrument } := by
  obtain ⟨hwanted, hinstrument, htold, hheard⟩ := heard_syncInstrument (t := t) hc hu
  have harpeggio := tells_syncArpeggio hk hc hw ((sends_syncContinuous hx).tables.trans ht)
  have hsettings : w.wanted.settings =
      { v.wanted.settings with instrument := note.instrument <|> v.wanted.instrument } := by
    rw [harpeggio.wanted, hwanted]
    rfl
  have hreplies : w.Replies t job note v' w.wanted.settings := by
    refine replies_settled hk hx hq ht (fun _ => by rw [harpeggio.told_eq]) fun _ => ?_
    rw [harpeggio.wanted, harpeggio.told_eq]
    exact hinstrument
  rw [hsettings] at hreplies
  refine ⟨hreplies.settings, hreplies.answers, fun cells hn hst => ?_,
    fun d hd => hreplies.heard d (harpeggio.heard d (hheard d hd))⟩
  refine hreplies.steady cells hn ?_
  -- an instrument makes unknown what no cell changes and was not known anyway
  have hst : Steady cells u.told
      { v.wanted.settings with instrument := note.instrument <|> v.wanted.instrument } := by
    rcases htold with htold | ⟨i, htold⟩
    · rw [htold]
      exact { hst with }
    · rw [htold]
      exact { hst with
        duty := fun hnone => ⟨rfl, (hst.duty hnone).2⟩
        fdsModSpeed := fun hnone => ⟨rfl, (hst.fdsModSpeed hnone).2⟩
        fdsModDepth := fun hnone => ⟨rfl, (hst.fdsModDepth hnone).2⟩ }
  rw [hsettings, harpeggio.told_eq]
  exact { hst with arpeggio := fun hnone => by rw [hnone note hn] }

/-- **What a cell has told the driver behind its value**, for every state of the driver. -/
theorem replies_playValue {v v' : Voice} {index : Nat} {row : Row} {rest : List Row} {note : Note}
    {advances : Bool} (hc : job.channel ≠ .dpcm)
    (h : v.playValue job index row rest note = .ok (v', advances)) (ht : v'.tables.Extends t) :
    v.Replies t job note v' { v.wanted.settings with
      instrument := if isPitched note then note.instrument <|> v.wanted.instrument
        else v.wanted.instrument } := by
  have hsilent : ∀ {u : Voice}, isPitched note = false → v.syncContinuous job = .ok u →
      u.Quiet v' → u.tables.Extends t →
      v.Replies t job note v' { v.wanted.settings with
        instrument := if isPitched note then note.instrument <|> v.wanted.instrument
          else v.wanted.instrument } := by
    intro u hp hu hq hut
    rw [hp]
    exact replies_settled hk hu hq hut (fun h => by rw [hp] at h; cases h)
      fun h => by rw [hp] at h; cases h
  cases playValue_ok h with
  | sample hv hdpcm => exact absurd hdpcm hc
  | @pitch value u w x hv _ hu hw hx =>
    have hp : isPitched note = true := by rw [isPitched, hv]
    have hq : x.Quiet ((x.delays job note).pitchedNote job row rest note value) :=
      (quiet_delays x note).trans (quiet_pitchedNote _ row rest note value)
    have hdelays : x.Sends (x.delays job note) := sends_delays x note
    have hpitched := (plays_pitchedNote (x.delays job note) row rest note value hc).tables
    rw [hp]
    exact replies_pitch hk hc hu hw hx hq (hdelays.tables.trans (hpitched.trans ht))
  | @stop u hv hu =>
    have hdelays : u.Sends (u.delays job note) := sends_delays u note
    exact hsilent (by rw [isPitched, hv]) hu
      ((quiet_delays u note).trans (quiet_emit _ fun _ => rfl)) (hdelays.tables.trans ht)
  | @release u hv _ hu =>
    have hdelays : u.Sends (u.delays job note) := sends_delays u note
    exact hsilent (by rw [isPitched, hv]) hu
      ((quiet_delays u note).trans (quiet_emit _ fun _ => rfl)) (hdelays.tables.trans ht)
  | @ignored u hv hclassic => exact absurd hk hclassic
  | silent hv hu => exact hsilent (by rw [isPitched, hv]) hu (.refl _) ht

omit hk in
/-- A driver that has the instrument's own setting still has it when a cell asks for none. -/
theorem heard_want {v : Voice} (note : Note) (hd : v.Heard t job d) :
    (v.want job note).Heard t job d := by
  obtain ⟨w, htakes, hw⟩ := takes_want job v note
  rw [Heard, htakes.wanted, htakes.told, htakes.row]
  have hduty : w.duty = none → v.wanted.duty = none := by
    intro hnone
    have hs := congrArg Settings.duty hw
    simp only [Wanted.settings, Settings.after, hnone] at hs
    grind
  have hspeed : w.fdsModSpeed = none → v.wanted.fdsModSpeed = none := by
    intro hnone
    have hs := congrArg Settings.fdsModSpeed hw
    simp only [Wanted.settings, Settings.after, hnone] at hs
    grind
  have hdepth : w.fdsModDepth = none → v.wanted.fdsModDepth = none := by
    intro hnone
    have hs := congrArg Settings.fdsModDepth hw
    simp only [Wanted.settings, Settings.after, hnone] at hs
    grind
  exact { hd with
    ownDuty := fun hi hnone => hd.ownDuty hi (hduty hnone)
    ownModSpeed := fun hi hnone => hd.ownModSpeed hi (hspeed hnone)
    ownModDepth := fun hi hnone => hd.ownModDepth hi (hdepth hnone) }

/-- **What a row has told the driver**, for every state of the driver. -/
theorem answers_processRow {v u : Voice} {index : Nat} {row : Row} {speed : Option UInt8}
    {rest : List Row} {advances : Bool} (hc : job.channel ≠ .dpcm)
    (h : v.processRow job index row speed rest = .ok (u, advances)) (ht : u.tables.Extends t) :
    u.wanted.settings = v.wanted.settings.afterRow job.channel row ∧
    (∀ note ∈ row.note, Answers note u.wanted.settings u.told) ∧
    (∀ cells, (∀ n ∈ row.note, n ∈ cells) → Steady cells v.told v.wanted.settings →
      Steady cells u.told u.wanted.settings) ∧
    ∀ d, v.Heard t job d → u.Heard t job d := by
  have htempo : v.Quiet (v.tempoOf job row speed) := quiet_tempoOf v row speed
  obtain ⟨_, _, htold⟩ := htempo.told
  have hsteady : ∀ cells, Steady cells v.told v.wanted.settings → Steady cells
      (v.tempoOf job row speed).told (v.tempoOf job row speed).wanted.settings := by
    intro cells hst
    rw [htold, htempo.settings]
    exact { hst with }
  cases processRow_ok h with
  | silent hnone =>
    exact ⟨by rw [htempo.settings, Settings.afterRow, hnone], by simp [hnone],
      fun cells _ => hsteady cells, fun d => htempo.heard⟩
  | @cell note x _ hnote hresult =>
    generalize v.tempoOf job row speed = w at hresult htempo hsteady
    obtain ⟨hdelta, htables⟩ := quiet_deltaCounter x hc note.deltaCounter
    obtain ⟨hs, hanswers, hst, hheard⟩ := replies_playValue hk hc hresult (htables.trans ht)
    rw [← hs] at hanswers hst
    obtain ⟨wanted, htakes, hw⟩ := takes_want job w note
    obtain ⟨_, _, hdtold⟩ := hdelta.told
    rw [htakes.wanted, htakes.told] at hst
    rw [htakes.wanted] at hs
    have hinstrument : wanted.instrument = w.wanted.instrument :=
      congrArg Settings.instrument hw
    have hsettings : x.wanted.settings = w.wanted.settings.after job.channel note := by
      rw [hs, hw, hinstrument]
      rfl
    refine ⟨?_, fun n hn => ?_, fun cells hcells hv => ?_, fun d hd => ?_⟩
    · rw [hdelta.settings, hsettings, htempo.settings, Settings.afterRow, hnote]
    · rw [hnote] at hn
      cases hn
      rw [hdelta.settings, hdtold]
      exact { hanswers with }
    · have hn := hcells note hnote
      have hbefore : Steady cells w.told wanted.settings := by
        rw [hw]
        exact (hsteady cells hv).after hn job.channel _
      rw [hdelta.settings, hdtold]
      exact { hst cells hn hbefore with }
    · exact hdelta.heard (hheard d (heard_want note (htempo.heard hd)))

end

end Voice

/-! ## The rows of a run -/

/-- The override is the curve of a vibrato, whose speed and depth are at most 15. -/
def PlaysVibrato (t : Tables) (stem : String) : Option Vibrato → Option Target → Prop
  | none, target => target = none
  | some setting, target =>
    ∃ index bytes, CurveAt t stem index target ∧ t.curves.get? index = some bytes ∧
      Tables.IsVibrato (min 15 setting.speed) (min 15 setting.depth) bytes

/-- **A driver plays a row with a cell as the song asks for**: its settings are those that the cells
up to the row ask for, and on a row with a note it also has the note's arpeggio and, if a cell has
named an instrument, this instrument with its own duty and modulation where no cell asked for
others. -/
structure Tuned (t : Tables) (job : Job) (note : Note) (s : Settings) (d : Driver) : Prop where
  volume : d.volume = s.volume
  finePitch : d.finePitch = s.finePitch
  vibrato : PlaysVibrato t job.stem s.vibrato d.vibrato
  duty : ∀ x, s.duty = some x → d.duty = some x
  fdsModSpeed : ∀ x, s.fdsModSpeed = some x → d.fdsModSpeed = some x
  fdsModDepth : ∀ x, s.fdsModDepth = some x → d.fdsModDepth = some x
  arpeggio : isPitched note = true → HearsArpeggio t job note.arpeggio d.arpeggio
  instrument : isPitched note = true → ∀ i, s.instrument = some i →
    (∃ slot, job.slots.slot i = some slot ∧ d.instrument = some slot) ∧
      d.duty = s.duty ∧ d.fdsModSpeed = s.fdsModSpeed ∧ d.fdsModDepth = s.fdsModDepth

theorem Answers.tuned {note : Note} {told : Told} {wanted : Wanted}
    (h : Answers note wanted.settings told) (hd : Hears t job told wanted d) (ht : t.Sound) :
    Tuned t job note wanted.settings d := by
  have hvibrato : ∀ setting target, HearsVibrato t job.stem setting target →
      PlaysVibrato t job.stem setting target := by
    intro setting target hs
    cases setting with
    | none => exact hs
    | some setting =>
      obtain ⟨index, hlookup, hcurve⟩ := hs
      obtain ⟨bytes, hbytes, hv⟩ := ht.vibratos _ _ hlookup
      exact ⟨index, bytes, hcurve, hbytes, hv⟩
  refine ⟨hd.volume _ h.volume, hd.finePitch _ h.finePitch, hvibrato _ _ (hd.vibrato _ h.vibrato),
    fun x hx => hd.duty x (h.duty x hx), fun x hx => hd.fdsModSpeed x (h.fdsModSpeed x hx),
    fun x hx => hd.fdsModDepth x (h.fdsModDepth x hx), fun hp => hd.arpeggio _ (h.arpeggio hp),
    fun hp i hi => ?_⟩
  have htold := h.instrument hp i hi
  have hsome : told.instrument.isSome = true := by rw [htold]; rfl
  refine ⟨hd.instrument i htold, ?_, ?_, ?_⟩
  · cases hs : wanted.settings.duty with
    | none => exact hd.ownDuty hsome hs
    | some x => exact hd.duty x (h.duty x hs)
  · cases hs : wanted.settings.fdsModSpeed with
    | none => exact hd.ownModSpeed hsome hs
    | some x => exact hd.fdsModSpeed x (h.fdsModSpeed x hs)
  · cases hs : wanted.settings.fdsModDepth with
    | none => exact hd.ownModDepth hsome hs
    | some x => exact hd.fdsModDepth x (h.fdsModDepth x hs)

/-- A row of the song, with the settings it asks for, and what a driver plays for it. -/
def RowTuned (t : Tables) (job : Job) (asked : Row × Settings) (heard : Played × Driver) : Prop :=
  heard.1 = rowPlays job asked.1 ∧ ∀ note ∈ asked.1.note, Tuned t job note asked.2 heard.2

/-- Cells of some rows. -/
def cellsOf (rows : List Row) : List Note := rows.filterMap (·.note)

end Chiptune.Stream
