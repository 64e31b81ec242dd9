import Chiptune.Proofs.Rows

/-!
# The settings of a driver while a stream plays

A cell changes the settings of its channel for all rows to come (`Settings.after`). A stream holds
only the changes against what the driver was told before. `Hears` is the invariant: whatever the
driver was told, it has.

* `Voice.takes_want`: what the cells of a channel ask for.
* `Voice.tells_syncContinuous`, `Voice.tells_syncArpeggio`, `Voice.heard_syncInstrument`: **a step
  tells the driver what is asked for**, and the driver has it whatever its state was.
-/

set_option autoImplicit false

namespace Chiptune.Stream

/-! ## What the cells of a channel ask for -/

/-- Settings that the cells of a channel ask for; `none` is the instrument's own. -/
structure Settings where
  volume : UInt8 := initialVolume
  finePitch : Int8 := 0
  vibrato : Option Vibrato := none
  duty : Option UInt8 := none
  fdsModSpeed : Option UInt16 := none
  fdsModDepth : Option UInt8 := none
  /-- Instrument that a pitched cell named last. -/
  instrument : Option Nat := none

/-- Whether a cell plays a note. -/
def isPitched (note : Note) : Bool :=
  match note.value with
  | some (.pitch _) => true
  | _ => false

/-- A vibrato that can be heard. -/
def audible (v : Vibrato) : Option Vibrato := if 0 < v.speed ∧ 0 < v.depth then some v else none

/-- Settings behind a cell: the values that it sets and the channel supports, within their bounds.
-/
def Settings.after (channel : Channel) (s : Settings) (note : Note) : Settings where
  volume := if channel.supportsVolume then (note.volume.map (min 15)).getD s.volume else s.volume
  finePitch := if channel.supportsFinePitch then note.finePitch.getD s.finePitch else s.finePitch
  vibrato :=
    if channel.supportsVibrato then (note.vibrato.map audible).getD s.vibrato else s.vibrato
  duty :=
    if channel.supportsDuty then note.duty.map (min channel.dutyLimit) <|> s.duty else s.duty
  fdsModSpeed :=
    if channel.supportsFdsModulation then note.fdsModSpeed.map (min 4095) <|> s.fdsModSpeed
    else s.fdsModSpeed
  fdsModDepth :=
    if channel.supportsFdsModulation then note.fdsModDepth.map (min 63) <|> s.fdsModDepth
    else s.fdsModDepth
  instrument := if isPitched note then note.instrument <|> s.instrument else s.instrument

/-- Settings behind a row. -/
def Settings.afterRow (channel : Channel) (s : Settings) (row : Row) : Settings :=
  match row.note with
  | some note => s.after channel note
  | none => s

/-- The rows of a channel, each with the settings that the cells up to it ask for. -/
def settingRows (channel : Channel) (s : Settings) : List Row → List (Row × Settings)
  | [] => []
  | row :: rest =>
    (row, s.afterRow channel row) :: settingRows channel (s.afterRow channel row) rest

/-- Settings that the song asks for at a row. -/
def Wanted.settings (w : Wanted) : Settings where
  volume := w.volume
  finePitch := w.finePitch
  vibrato := w.vibrato
  duty := w.duty
  fdsModSpeed := w.fdsModSpeed
  fdsModDepth := w.fdsModDepth
  instrument := w.instrument

variable {job : Job} {t : Tables} {d : Driver}

namespace Voice

/-- A step that changes only what the song asks for. -/
structure Takes (v v' : Voice) (wanted : Wanted) : Prop where
  wanted : v'.wanted = wanted
  told : v'.told = v.told
  row : v'.row = v.row

theorem Takes.refl (v : Voice) : v.Takes v v.wanted := ⟨rfl, rfl, rfl⟩

theorem takes_logging (v : Voice) (change : Log → Log) : v.Takes (v.logging change) v.wanted :=
  ⟨rfl, rfl, rfl⟩

theorem clamped_zero (v : Voice) (value high : UInt8) (what : String) :
    (v.clamped value 0 high what).1 = min high value := by
  rw [clamped_eq v (UInt8.zero_le) what]
  have hmax : max 0 (min high value) =
      if 0 ≤ min high value then min high value else 0 := rfl
  rw [hmax, if_pos UInt8.zero_le]

theorem takes_volume (job : Job) (v : Voice) (volume : Option UInt8) :
    v.Takes (v.withSome volume (wantVolume · job)) { v.wanted with
      volume := if job.channel.supportsVolume then (volume.map (min 15)).getD v.wanted.volume
        else v.wanted.volume } := by
  cases volume with
  | none => exact ⟨by simp [withSome], rfl, rfl⟩
  | some x =>
    simp only [withSome, wantVolume]
    split
    · exact ⟨by simp only [clamped_zero]; rfl, rfl, rfl⟩
    · exact takes_logging v _

theorem takes_finePitch (job : Job) (v : Voice) (finePitch : Option Int8) :
    v.Takes (v.withSome finePitch (wantFinePitch · job)) { v.wanted with
      finePitch := if job.channel.supportsFinePitch then finePitch.getD v.wanted.finePitch
        else v.wanted.finePitch } := by
  cases finePitch with
  | none => exact ⟨by simp [withSome], rfl, rfl⟩
  | some x =>
    simp only [withSome, wantFinePitch]
    split
    · exact ⟨rfl, rfl, rfl⟩
    · exact takes_logging v _

theorem takes_vibrato (job : Job) (v : Voice) (vibrato : Option Vibrato) :
    v.Takes (v.withSome vibrato (wantVibrato · job)) { v.wanted with
      vibrato := if job.channel.supportsVibrato then (vibrato.map audible).getD v.wanted.vibrato
        else v.wanted.vibrato } := by
  cases vibrato with
  | none => exact ⟨by simp [withSome], rfl, rfl⟩
  | some x =>
    simp only [withSome, wantVibrato]
    split
    · exact ⟨rfl, rfl, rfl⟩
    · exact takes_logging v _

theorem takes_duty (job : Job) (v : Voice) (duty : Option UInt8) :
    v.Takes (v.withSome duty (wantDuty · job)) { v.wanted with
      duty := if job.channel.supportsDuty then
          duty.map (min job.channel.dutyLimit) <|> v.wanted.duty
        else v.wanted.duty } := by
  cases duty with
  | none => exact ⟨by simp [withSome], rfl, rfl⟩
  | some x =>
    simp only [withSome, wantDuty]
    split
    · exact ⟨by simp only [clamped_zero]; rfl, rfl, rfl⟩
    · exact takes_logging v _

theorem takes_fdsModSpeed (v : Voice) (speed : Option UInt16) :
    v.Takes (v.withSome speed wantFdsModSpeed) { v.wanted with
      fdsModSpeed := speed.map (min 4095) <|> v.wanted.fdsModSpeed } := by
  cases speed with
  | none => exact ⟨rfl, rfl, rfl⟩
  | some x => exact ⟨rfl, rfl, rfl⟩

theorem takes_fdsModDepth (v : Voice) (depth : Option UInt8) :
    v.Takes (v.withSome depth wantFdsModDepth) { v.wanted with
      fdsModDepth := depth.map (min 63) <|> v.wanted.fdsModDepth } := by
  cases depth with
  | none => exact ⟨rfl, rfl, rfl⟩
  | some x =>
    simp only [withSome, wantFdsModDepth]
    exact ⟨by simp only [clamped_zero]; rfl, rfl, rfl⟩

/-- **Taking the attributes of a cell changes the settings as the cell asks for**; its instrument is
taken only with its note. -/
theorem takes_want (job : Job) (v : Voice) (note : Note) :
    ∃ w, v.Takes (v.want job note) w ∧
      w.settings =
        { v.wanted.settings.after job.channel note with instrument := v.wanted.instrument } := by
  have h₁ := takes_volume job v note.volume
  unfold want
  generalize v.withSome note.volume (wantVolume · job) = v₁ at h₁ ⊢
  have h₂ := takes_finePitch job v₁ note.finePitch
  simp only
  generalize v₁.withSome note.finePitch (wantFinePitch · job) = v₂ at h₂ ⊢
  have h₃ := takes_vibrato job v₂ note.vibrato
  generalize v₂.withSome note.vibrato (wantVibrato · job) = v₃ at h₃ ⊢
  have h₄ := takes_duty job v₃ note.duty
  generalize v₃.withSome note.duty (wantDuty · job) = v₄ at h₄ ⊢
  have hwanted := h₄.wanted
  rw [h₃.wanted, h₂.wanted, h₁.wanted] at hwanted
  have htold : v₄.told = v.told := by rw [h₄.told, h₃.told, h₂.told, h₁.told]
  have hrow : v₄.row = v.row := by rw [h₄.row, h₃.row, h₂.row, h₁.row]
  split
  · split
    · rename_i hfds
      have h₅ := takes_fdsModSpeed v₄ note.fdsModSpeed
      generalize v₄.withSome note.fdsModSpeed wantFdsModSpeed = v₅ at h₅ ⊢
      have h₆ := takes_fdsModDepth v₅ note.fdsModDepth
      refine ⟨_, ⟨rfl, by rw [h₆.told, h₅.told, htold], by rw [h₆.row, h₅.row, hrow]⟩, ?_⟩
      rw [h₆.wanted, h₅.wanted, hwanted]
      simp [Wanted.settings, Settings.after, hfds]
    · rename_i hfds
      refine ⟨_, ⟨rfl, htold, hrow⟩, ?_⟩
      show v₄.wanted.settings = _
      rw [hwanted]
      simp [Wanted.settings, Settings.after, hfds]
  · rename_i hnone
    refine ⟨_, ⟨rfl, htold, hrow⟩, ?_⟩
    simp only [Bool.or_eq_true, not_or, Bool.not_eq_true, Option.isSome_eq_false_iff,
      Option.isNone_iff_eq_none] at hnone
    rw [hwanted]
    simp [Wanted.settings, Settings.after, hnone.1, hnone.2]

end Voice

/-! ## What the driver was told, it has -/

/-- The two operand bytes of a modulation speed are the speed again. -/
theorem modSpeed_of_bytes (speed : UInt16) :
    UInt16.ofNat (speed.toUInt8.toNat + 256 * (speed >>> 8).toUInt8.toNat) = speed := by
  have hlt := speed.toNat_lt
  rw [← UInt16.toNat_inj]
  simp [UInt16.toNat_ofNat', Nat.shiftRight_eq_div_pow]
  omega

/-- The address is that of a curve of the tables. -/
def CurveAt (t : Tables) (stem : String) (index : Nat) (target : Option Target) : Prop :=
  ∃ id, target = some (.symbol id) ∧ t.symbols.name? id = some ((Label.envelope index).text stem)

/-- The override is that of a vibrato. -/
def HearsVibrato (t : Tables) (stem : String) : Option Vibrato → Option Target → Prop
  | none, target => target = none
  | some setting, target =>
    ∃ index, t.vibratos.lookup (Tables.vibratoKey setting) = some index ∧
      CurveAt t stem index target

/-- The override is that of an arpeggio of the project. -/
def HearsArpeggio (t : Tables) (job : Job) : Option Nat → Option Target → Prop
  | none, target => target = none
  | some arpeggio, target =>
    ∃ curve, job.arpeggios[arpeggio]? = some curve ∧ CurveAt t job.stem curve target

/-- **What the driver was told, it has**; and while it was told an instrument, its duty and
modulation are the instrument's own unless the song asked for others. -/
structure Hears (t : Tables) (job : Job) (told : Told) (wanted : Wanted) (d : Driver) : Prop where
  volume : ∀ x, told.volume = some x → d.volume = x
  finePitch : ∀ x, told.finePitch = some x → d.finePitch = x
  vibrato : ∀ x, told.vibrato = some x → HearsVibrato t job.stem x d.vibrato
  arpeggio : ∀ x, told.arpeggio = some x → HearsArpeggio t job x d.arpeggio
  instrument : ∀ i, told.instrument = some i →
    ∃ slot, job.slots.slot i = some slot ∧ d.instrument = some slot
  duty : ∀ x, told.duty = some x → d.duty = some x
  fdsModSpeed : ∀ x, told.fdsModSpeed = some x → d.fdsModSpeed = some x
  fdsModDepth : ∀ x, told.fdsModDepth = some x → d.fdsModDepth = some x
  ownDuty : told.instrument.isSome = true → wanted.duty = none → d.duty = none
  ownModSpeed : told.instrument.isSome = true → wanted.fdsModSpeed = none → d.fdsModSpeed = none
  ownModDepth : told.instrument.isSome = true → wanted.fdsModDepth = none → d.fdsModDepth = none

namespace Voice

/-- The driver hears a voice if it does so behind the instructions of the current row, which it
began as `d`. -/
def Heard (t : Tables) (job : Job) (v : Voice) (d : Driver) : Prop :=
  Hears t job v.told v.wanted (d.after v.row)

/-- A step that tells the driver something, which the driver hears whatever its state is. -/
structure Tells (t : Tables) (job : Job) (v v' : Voice) (told : Told) : Prop where
  wanted : v'.wanted = v.wanted
  told_eq : v'.told = told
  heard : ∀ d, v.Heard t job d → v'.Heard t job d

theorem Tells.trans {v v' v'' : Voice} {told told' : Told} (h : Tells t job v v' told)
    (h' : Tells t job v' v'' told') : Tells t job v v'' told' :=
  ⟨h'.wanted.trans h.wanted, h'.told_eq, fun d hd => h'.heard d (h.heard d hd)⟩

/-- The number that the label of a curve has in the tables behind a step is its address in all
later tables. -/
theorem curveAt_symbol {u : Tables} (index : Nat)
    (ht : (u.symbol ((Label.envelope index).text job.stem)).2.Extends t) :
    CurveAt t job.stem index
      (some (.symbol (u.symbol ((Label.envelope index).text job.stem)).1)) :=
  ⟨_, rfl, ht.name? (u.name?_symbol _)⟩

/-- **An instrument**: behind it the driver has the instrument that the cells named last. -/
theorem heard_syncInstrument {v v' : Voice} {note : Note} {row : Nat} (hc : job.channel ≠ .dpcm)
    (h : v.syncInstrument job note row = .ok v') :
    v'.wanted = { v.wanted with instrument := note.instrument <|> v.wanted.instrument } ∧
    (∀ i, v'.wanted.instrument = some i → v'.told.instrument = some i) ∧
    (v'.told = v.told ∨ ∃ i, v'.told = { v.told with
      instrument := some i, duty := none, fdsModSpeed := none, fdsModDepth := none }) ∧
    ∀ d, v.Heard t job d → v'.Heard t job d := by
  cases syncInstrument_ok h with
  | noTable hnone =>
    simp only [Channel.instrumentTable, if_neg hc] at hnone
    split at hnone <;> cases hnone
  | noInstrument _ hnone => exact ⟨by rw [hnone], by simp, .inl rfl, fun d hd => { hd with }⟩
  | @known i slot instrument hpicks hdue =>
    have htold : v.told.instrument = some i := told_of_known hdue
    refine ⟨by rw [hpicks.wanted]; rfl, fun j hj => ?_, .inl rfl, fun d hd => { hd with }⟩
    rw [← hj]
    exact htold
  | @sent i slot instrument hpicks =>
    refine ⟨by rw [hpicks.wanted]; rfl, fun j hj => hj, .inr ⟨i, rfl⟩, fun d hd => ?_⟩
    have hslot := hpicks.slot
    simp only [Heard, picked, emit, Driver.after_append]
    exact { hd with
      instrument := fun j hj => by
        cases hj
        exact ⟨slot, hslot, rfl⟩
      duty := fun x hx => by cases hx
      fdsModSpeed := fun x hx => by cases hx
      fdsModDepth := fun x hx => by cases hx
      ownDuty := fun _ _ => rfl
      ownModSpeed := fun _ _ => rfl
      ownModDepth := fun _ _ => rfl }

section

variable (hk : job.kernel = .extended)
include hk

theorem issue_eq (v : Voice) (op : Op) (bytes : List UInt8) :
    v.issue job op bytes = v.emit (.op op bytes []) := by
  have hsupports : job.kernel.supports op = true := by rw [hk]; cases op <;> rfl
  rw [issue, if_pos hsupports]

theorem issueAt_eq (v : Voice) (op : Op) (label : Label) :
    v.issueAt job op label =
      { v with tables := (v.tables.symbol (label.text job.stem)).2 }.emit
        (.op op [] [.symbol (v.tables.symbol (label.text job.stem)).1]) := by
  have hsupports : job.kernel.supports op = true := by rw [hk]; cases op <;> rfl
  rw [issueAt, if_pos hsupports]

theorem supports_eq (op : Op) : job.kernel.supports op = true := by
  rw [hk]
  cases op <;> rfl

theorem tells_syncVolume (v : Voice) :
    Tells t job v (v.syncVolume job) { v.told with volume := some v.wanted.volume } := by
  unfold syncVolume
  simp only [supports_eq hk, if_true]
  split
  · rename_i h
    exact ⟨rfl, by rw [← h], fun _ hd => hd⟩
  · rw [issue_eq hk]
    refine ⟨rfl, rfl, fun d hd => ?_⟩
    simp only [Heard, emit, Driver.after_append]
    exact { hd with volume := fun x hx => Option.some.inj hx }

theorem tells_syncFinePitch (v : Voice) :
    Tells t job v (v.syncFinePitch job) { v.told with finePitch := some v.wanted.finePitch } := by
  unfold syncFinePitch
  simp only [supports_eq hk, if_true]
  split
  · rename_i h
    exact ⟨rfl, by rw [← h], fun _ hd => hd⟩
  · rw [issue_eq hk]
    refine ⟨rfl, rfl, fun d hd => ?_⟩
    simp only [Heard, emit, Driver.after_append]
    have hpitch : ∀ x, some v.wanted.finePitch = some x →
        v.wanted.finePitch.toUInt8.toInt8 = x := by
      intro x hx
      rw [Int8.toInt8_toUInt8]
      exact Option.some.inj hx
    exact { hd with finePitch := hpitch }

theorem tells_syncDuty (v : Voice) :
    Tells t job v (v.syncDuty job) { v.told with duty := v.wanted.duty <|> v.told.duty } := by
  unfold syncDuty
  cases hw : v.wanted.duty with
  | none => exact ⟨rfl, rfl, fun _ hd => hd⟩
  | some duty =>
    simp only [withSome, supports_eq hk, if_true]
    split
    · rename_i h
      have hsame : (some duty <|> v.told.duty) = v.told.duty := by
        rw [h]
        rfl
      exact ⟨rfl, by rw [hsame], fun _ hd => hd⟩
    · rw [issue_eq hk]
      refine ⟨rfl, rfl, fun d hd => ?_⟩
      simp only [Heard, emit, Driver.after_append]
      exact { hd with
        duty := fun x hx => hx
        ownDuty := fun _ hnone => by rw [hw] at hnone; cases hnone }

theorem tells_syncFdsModSpeed (v : Voice) :
    Tells t job v (v.syncFdsModSpeed job)
      { v.told with fdsModSpeed := v.wanted.fdsModSpeed <|> v.told.fdsModSpeed } := by
  unfold syncFdsModSpeed
  cases hw : v.wanted.fdsModSpeed with
  | none => exact ⟨rfl, rfl, fun _ hd => hd⟩
  | some speed =>
    simp only [withSome, supports_eq hk, if_true]
    split
    · rename_i h
      have hsame : (some speed <|> v.told.fdsModSpeed) = v.told.fdsModSpeed := by
        rw [h]
        rfl
      exact ⟨rfl, by rw [hsame], fun _ hd => hd⟩
    · rw [issue_eq hk]
      refine ⟨rfl, rfl, fun d hd => ?_⟩
      simp only [Heard, emit, Driver.after_append]
      exact { hd with
        fdsModSpeed := fun x hx => by
          rw [← hx]
          exact congrArg some (modSpeed_of_bytes speed)
        ownModSpeed := fun _ hnone => by rw [hw] at hnone; cases hnone }

theorem tells_syncFdsModDepth (v : Voice) :
    Tells t job v (v.syncFdsModDepth job)
      { v.told with fdsModDepth := v.wanted.fdsModDepth <|> v.told.fdsModDepth } := by
  unfold syncFdsModDepth
  cases hw : v.wanted.fdsModDepth with
  | none => exact ⟨rfl, rfl, fun _ hd => hd⟩
  | some depth =>
    simp only [withSome, supports_eq hk, if_true]
    split
    · rename_i h
      have hsame : (some depth <|> v.told.fdsModDepth) = v.told.fdsModDepth := by
        rw [h]
        rfl
      exact ⟨rfl, by rw [hsame], fun _ hd => hd⟩
    · rw [issue_eq hk]
      refine ⟨rfl, rfl, fun d hd => ?_⟩
      simp only [Heard, emit, Driver.after_append]
      exact { hd with
        fdsModDepth := fun x hx => hx
        ownModDepth := fun _ hnone => by rw [hw] at hnone; cases hnone }

theorem tells_syncVibrato {v v' : Voice} (h : v.syncVibrato job = .ok v')
    (ht : v'.tables.Extends t) :
    Tells t job v v' { v.told with vibrato := some v.wanted.vibrato } := by
  cases syncVibrato_ok h with
  | known htold => exact ⟨rfl, by rw [← htold], fun _ hd => hd⟩
  | @starts setting index tables _ hwanted hcurve =>
    rw [issueAt_eq hk] at ht ⊢
    refine ⟨rfl, rfl, fun d hd => ?_⟩
    simp only [Heard, emit, Driver.after_append]
    have hlookup := ht.vibratos _ _
      ((tables.extends_symbol _).vibratos _ _ (Tables.vibrato_ok hcurve).2)
    exact { hd with
      vibrato := fun x hx => by
        rw [hwanted] at hx
        cases hx
        exact ⟨index, hlookup, curveAt_symbol index ht⟩ }
  | ends _ hwanted =>
    rw [issue_eq hk, issueAt_eq hk]
    refine ⟨rfl, rfl, fun d hd => ?_⟩
    simp only [Heard, emit, Driver.after_append]
    exact { hd with
      vibrato := fun x hx => by
        rw [hwanted] at hx
        cases hx
        exact rfl }
  | lacking hkernel => cases (supports_eq hk _).symm.trans hkernel

/-- **The continuous settings**: behind them the driver has every one that the song asks for. -/
theorem tells_syncContinuous {v v' : Voice} (h : v.syncContinuous job = .ok v')
    (ht : v'.tables.Extends t) :
    Tells t job v v' { v.told with
      volume := some v.wanted.volume
      finePitch := some v.wanted.finePitch
      vibrato := some v.wanted.vibrato
      duty := v.wanted.duty <|> v.told.duty
      fdsModSpeed := v.wanted.fdsModSpeed <|> v.told.fdsModSpeed
      fdsModDepth := v.wanted.fdsModDepth <|> v.told.fdsModDepth } := by
  obtain ⟨u, hu, h⟩ := bind_ok h
  cases h
  have hsends : u.Sends (((u.syncDuty job).syncFdsModSpeed job).syncFdsModDepth job) :=
    ((sends_syncDuty u).trans (sends_syncFdsModSpeed _)).trans (sends_syncFdsModDepth _)
  have hafter : u.tables.Extends t := hsends.tables.trans ht
  have h₁ := tells_syncVolume (t := t) hk v
  have h₂ := tells_syncFinePitch (t := t) hk (v.syncVolume job)
  have h₃ := tells_syncVibrato hk hu hafter
  have h₄ := tells_syncDuty (t := t) hk u
  have h₅ := tells_syncFdsModSpeed (t := t) hk (u.syncDuty job)
  have h₆ := tells_syncFdsModDepth (t := t) hk ((u.syncDuty job).syncFdsModSpeed job)
  have hall := ((((h₁.trans h₂).trans h₃).trans h₄).trans h₅).trans h₆
  rw [h₅.wanted, h₅.told_eq, h₄.wanted, h₄.told_eq, h₃.wanted, h₃.told_eq, h₂.wanted, h₂.told_eq,
    h₁.wanted, h₁.told_eq] at hall
  exact hall

theorem tells_syncArpeggio {v v' : Voice} {note : Note} (hc : job.channel ≠ .dpcm)
    (h : v.syncArpeggio job note = .ok v') (ht : v'.tables.Extends t) :
    Tells t job v v' { v.told with arpeggio := some note.arpeggio } := by
  have hsupports : job.channel.supportsArpeggio = true := by
    cases hchannel : job.channel <;> first | rfl | exact absurd hchannel hc
  cases syncArpeggio_ok h with
  | unsupported hchannel => cases hsupports.symm.trans hchannel
  | lacking hkernel => cases (supports_eq hk _).symm.trans hkernel
  | @again index hnote htold =>
    -- the same arpeggio starts again
    rw [issue_eq hk]
    refine ⟨rfl, by rw [hnote], fun d hd => ?_⟩
    simp only [Heard, emit, Driver.after_append]
    exact { hd with
      arpeggio := fun x hx => by
        rw [hnote] at hx
        exact hd.arpeggio x (htold.trans hx) }
  | @starts index curve hnote hcurve =>
    rw [issueAt_eq hk] at ht ⊢
    refine ⟨rfl, by rw [hnote], fun d hd => ?_⟩
    simp only [Heard, emit, Driver.after_append]
    exact { hd with
      arpeggio := fun x hx => by
        rw [hnote] at hx
        cases hx
        exact ⟨curve, hcurve, curveAt_symbol curve ht⟩ }
  | unchanged hnote htold =>
    exact ⟨rfl, by rw [hnote, ← htold (supports_eq hk _)], fun _ hd => hd⟩
  | ends hnote =>
    rw [issue_eq hk, issueAt_eq hk]
    refine ⟨rfl, by rw [hnote], fun d hd => ?_⟩
    simp only [Heard, emit, Driver.after_append]
    exact { hd with
      arpeggio := fun x hx => by
        rw [hnote] at hx
        cases hx
        exact rfl }

end

end Voice

end Chiptune.Stream
