import Chiptune.Proofs.Driver
import Chiptune.Proofs.Tables
import Chiptune.Stream

/-!
# The instructions of a row

A step of a row sends settings and adds to the shared tables (`Voice.Sends`). So a row is a sequence
of settings, with at most one instruction behind them that takes up the row (`Voice.Plays`).

* `Voice.syncVibrato_ok`, `Voice.syncInstrument_ok`, `Voice.syncArpeggio_ok`, `Voice.sampleNote_ok`,
  `Voice.playValue_ok`, `Voice.processRow_ok`: the ways that the steps of a row can go.
* `Voice.plays_processRow`: **what a row sends**.
-/

set_option autoImplicit false

namespace Chiptune

/-! ## Settings -/

/-- Whether an operation changes a setting of the driver and nothing else. -/
def Op.isSetting : Op → Bool
  | jump | halt | reference | extendedNote | slide | release => false
  | _ => true

/-- An instruction that changes a setting, with all its operands; addresses are those of symbols. -/
def Instruction.IsSetting : Instruction → Prop
  | instrument _ => True
  | op o bytes addresses =>
    o.isSetting = true ∧ bytes.length = o.operandBytes ∧ addresses.length = o.operandAddresses ∧
      ∀ a ∈ addresses, ∃ id, a = .symbol id
  | _ => False

/-- The symbols that an instruction names have numbers below a bound. -/
def Instruction.Numbered (bound : Nat) : Instruction → Prop
  | label id => id < bound
  | op _ _ targets => ∀ id, .symbol id ∈ targets → id < bound
  | _ => True

theorem Instruction.Numbered.mono {bound bound' : Nat} {i : Instruction} (h : i.Numbered bound)
    (hle : bound ≤ bound') : i.Numbered bound' := by
  cases i with
  | label id => exact Nat.lt_of_lt_of_le h hle
  | op o bytes targets => exact fun id hid => Nat.lt_of_lt_of_le (h id hid) hle
  | _ => trivial

namespace Stream

variable {job : Job}

namespace Voice

/-- The symbols of the current row are among those of the tables. -/
def Numbered (v : Voice) : Prop := ∀ i ∈ v.row, i.Numbered v.tables.symbols.names.size

theorem Numbered.extend {v : Voice} {t : Tables} (h : v.Numbered) (ht : v.tables.Extends t) :
    { v with tables := t }.Numbered :=
  fun i hi => (h i hi).mono ht.size_names

theorem Numbered.emit {v : Voice} {i : Instruction} (h : v.Numbered)
    (hi : i.Numbered v.tables.symbols.names.size) : (v.emit i).Numbered :=
  List.forall_mem_append.2 ⟨h, List.forall_mem_singleton.2 hi⟩

end Voice

/-- A step that adds settings to the row and entries to the tables. -/
structure Voice.Sends (v v' : Voice) : Prop where
  row : ∃ is, v'.row = v.row ++ is ∧ ∀ i ∈ is, i.IsSetting
  tables : v.tables.Extends v'.tables
  numbered : v.Numbered → v'.Numbered

namespace Voice

theorem Sends.refl (v : Voice) : v.Sends v := ⟨⟨[], by simp⟩, .refl _, id⟩

theorem Sends.trans {v v' v'' : Voice} (h : v.Sends v') (h' : v'.Sends v'') : v.Sends v'' := by
  obtain ⟨is, hr, his⟩ := h.row
  obtain ⟨js, hr', hjs⟩ := h'.row
  refine ⟨⟨is ++ js, by rw [hr', hr, List.append_assoc], ?_⟩, h.tables.trans h'.tables,
    fun hv => h'.numbered (h.numbered hv)⟩
  intro i hi
  rcases List.mem_append.1 hi with hi | hi
  · exact his i hi
  · exact hjs i hi

/-- A step that leaves the row and the tables alone. -/
theorem Sends.of_eq {v v' w : Voice} (h : v.Sends v') (hr : w.row = v'.row)
    (ht : w.tables = v'.tables) : v.Sends w := by
  obtain ⟨hrow, htables, hnumbered⟩ := h
  rw [← hr] at hrow
  rw [← ht] at htables
  refine ⟨hrow, htables, fun hv => ?_⟩
  rw [Numbered, hr, ht]
  exact hnumbered hv

/-- A step that only adds to the tables. -/
theorem sends_extend (v : Voice) {t : Tables} (ht : v.tables.Extends t) :
    v.Sends { v with tables := t } :=
  ⟨⟨[], by simp⟩, ht, fun hv => hv.extend ht⟩

theorem Sends.withSome {α : Type} {v : Voice} {step : Voice → α → Voice}
    (h : ∀ (v : Voice) a, v.Sends (step v a)) (value : Option α) :
    v.Sends (v.withSome value step) := by
  cases value with
  | none => exact .refl v
  | some a => exact h v a

theorem sends_logging (v : Voice) (change : Log → Log) : v.Sends (v.logging change) :=
  sends_extend v (v.tables.extends_logging change)

theorem sends_unsupported (v : Voice) (what : String) : v.Sends (v.unsupported job what) :=
  sends_logging v _

theorem sends_lacking (v : Voice) (op : Op) : v.Sends (v.lacking job op) := sends_logging v _

theorem sends_clamped (v : Voice) (value low high : UInt8) (what : String) :
    v.Sends (v.clamped value low high what).2 :=
  sends_logging v _

theorem sends_emit {v : Voice} {i : Instruction} (hi : i.IsSetting)
    (hn : i.Numbered v.tables.symbols.names.size) : v.Sends (v.emit i) :=
  ⟨⟨[i], rfl, by simpa using hi⟩, .refl _, fun hv => hv.emit hn⟩

theorem sends_issue (v : Voice) {op : Op} {bytes : List UInt8} (ho : op.isSetting = true)
    (hb : bytes.length = op.operandBytes) (ha : op.operandAddresses = 0) :
    v.Sends (v.issue job op bytes) := by
  unfold issue
  split
  · exact sends_emit ⟨ho, hb, ha.symm, by simp⟩ (by simp [Instruction.Numbered])
  · exact sends_lacking v op

theorem sends_issueAt (v : Voice) {op : Op} (label : Label) (ho : op.isSetting = true)
    (hb : op.operandBytes = 0) (ha : op.operandAddresses = 1) :
    v.Sends (v.issueAt job op label) := by
  unfold issueAt
  split
  · have htables := sends_extend v (v.tables.extends_symbol (label.text job.stem))
    have hname := v.tables.name?_symbol (label.text job.stem)
    refine htables.trans (sends_emit ⟨ho, hb.symm, ha.symm, by simp⟩ fun id hid => ?_)
    cases List.mem_singleton.1 hid
    exact Tables.lt_of_name? hname
  · exact sends_lacking v op

/-! ## Tempo -/

theorem sends_wantTempo (v : Voice) (row : Row) (speed : Option UInt8) :
    v.Sends (v.wantTempo job row speed) := by
  unfold wantTempo
  split
  · split
    · exact (sends_clamped v _ _ _ _).of_eq rfl rfl
    · exact .refl v
  · refine Sends.trans ?_ (sends_logging _ _)
    split
    · exact (sends_extend v (v.tables.extends_groove _)).of_eq rfl rfl
    · exact .refl v

theorem sends_syncTempo (v : Voice) : v.Sends (v.syncTempo job) := by
  unfold syncTempo
  split
  · simp only
    split
    · exact .refl v
    · split
      · exact (sends_issue v rfl rfl rfl).of_eq rfl rfl
      · exact sends_lacking v _
  · simp only
    split
    · exact .refl v
    · split
      · exact (sends_issueAt v _ rfl rfl rfl).of_eq rfl rfl
      · exact sends_lacking v _

/-! ## Attributes -/

theorem sends_want (v : Voice) (note : Note) : v.Sends (v.want job note) := by
  have hvolume : ∀ (v : Voice) a, v.Sends (v.wantVolume job a) := by
    intro v a
    unfold wantVolume
    split
    · exact (sends_clamped v _ _ _ _).of_eq rfl rfl
    · exact sends_unsupported v _
  have hpitch : ∀ (v : Voice) a, v.Sends (v.wantFinePitch job a) := by
    intro v a
    unfold wantFinePitch
    split
    · exact (Sends.refl v).of_eq rfl rfl
    · exact sends_unsupported v _
  have hvibrato : ∀ (v : Voice) a, v.Sends (v.wantVibrato job a) := by
    intro v a
    unfold wantVibrato
    split
    · exact (Sends.refl v).of_eq rfl rfl
    · exact sends_unsupported v _
  have hduty : ∀ (v : Voice) a, v.Sends (v.wantDuty job a) := by
    intro v a
    unfold wantDuty
    split
    · exact (sends_clamped v _ _ _ _).of_eq rfl rfl
    · exact sends_unsupported v _
  have hspeed : ∀ (v : Voice) a, v.Sends (v.wantFdsModSpeed a) := fun v a =>
    (sends_logging v _).of_eq rfl rfl
  have hdepth : ∀ (v : Voice) a, v.Sends (v.wantFdsModDepth a) := fun v a =>
    (sends_clamped v _ _ _ _).of_eq rfl rfl
  have hfour := (((Sends.withSome (v := v) hvolume note.volume).trans
    (.withSome hpitch note.finePitch)).trans (.withSome hvibrato note.vibrato)).trans
    (.withSome hduty note.duty)
  unfold want
  simp only
  split
  · split
    · exact hfour.trans ((Sends.withSome hspeed _).trans (Sends.withSome hdepth _))
    · exact hfour.trans (sends_unsupported _ _)
  · exact hfour

/-! ## What the driver does not have yet -/

theorem sends_syncVolume (v : Voice) : v.Sends (v.syncVolume job) := by
  unfold syncVolume
  simp only
  split
  · exact .refl v
  · split
    · exact (sends_issue v rfl rfl rfl).of_eq rfl rfl
    · exact sends_lacking v _

theorem sends_syncFinePitch (v : Voice) : v.Sends (v.syncFinePitch job) := by
  unfold syncFinePitch
  simp only
  split
  · exact .refl v
  · split
    · exact (sends_issue v rfl rfl rfl).of_eq rfl rfl
    · exact sends_lacking v _

/-- The ways to send the vibrato that is wanted. -/
inductive SyncsVibrato (job : Job) (v : Voice) : Voice → Prop
  | known (htold : v.told.vibrato = some v.wanted.vibrato) : SyncsVibrato job v v
  | starts {setting : Vibrato} {index : Nat} {tables : Tables}
      (htold : v.told.vibrato ≠ some v.wanted.vibrato) (hwanted : v.wanted.vibrato = some setting)
      (hcurve : v.tables.vibrato setting = .ok (index, tables)) :
      SyncsVibrato job v { { v with tables }.issueAt job .vibratoOverride (.envelope index) with
        told := { v.told with vibrato := some v.wanted.vibrato } }
  | ends (htold : v.told.vibrato ≠ some v.wanted.vibrato) (hwanted : v.wanted.vibrato = none) :
      SyncsVibrato job v
        { (v.issueAt job .vibratoOverride (.envelope Tables.defaultCurve)).issue job
            .clearPitchOverride [] with
          told := { v.told with vibrato := some v.wanted.vibrato } }
  | lacking (hkernel : job.kernel.supports .vibratoOverride = false) :
      SyncsVibrato job v (v.lacking job .vibratoOverride)

theorem syncVibrato_ok {v v' : Voice} (h : v.syncVibrato job = .ok v') : SyncsVibrato job v v' := by
  unfold syncVibrato at h
  simp only at h
  split at h
  · rename_i htold
    cases h
    exact .known htold
  rename_i htold
  split at h
  · split at h
    · rename_i setting hwanted
      obtain ⟨⟨index, tables⟩, hcurve, h⟩ := bind_ok h
      cases h
      exact .starts htold hwanted hcurve
    · rename_i hwanted
      cases h
      exact .ends htold hwanted
  · rename_i hkernel
    cases h
    exact .lacking (by simpa using hkernel)

theorem sends_syncVibrato {v v' : Voice} (h : v.syncVibrato job = .ok v') : v.Sends v' := by
  cases syncVibrato_ok h with
  | known => exact .refl v
  | @starts setting index tables _ _ hcurve =>
    have htables : v.Sends { v with tables } := sends_extend v (Tables.vibrato_ok hcurve).1
    exact (htables.trans (sends_issueAt _ _ rfl rfl rfl)).of_eq rfl rfl
  | ends =>
    have hcurve : v.Sends (v.issueAt job .vibratoOverride (.envelope Tables.defaultCurve)) :=
      sends_issueAt v _ rfl rfl rfl
    exact (hcurve.trans (sends_issue _ rfl rfl rfl)).of_eq rfl rfl
  | lacking => exact sends_lacking v _

theorem sends_syncDuty (v : Voice) : v.Sends (v.syncDuty job) := by
  refine Sends.withSome (fun v duty => ?_) _
  split
  · exact .refl v
  · split
    · exact (sends_issue v rfl rfl rfl).of_eq rfl rfl
    · exact sends_lacking v _

theorem sends_syncFdsModSpeed (v : Voice) : v.Sends (v.syncFdsModSpeed job) := by
  refine Sends.withSome (fun v speed => ?_) _
  split
  · exact .refl v
  · split
    · exact (sends_issue v rfl rfl rfl).of_eq rfl rfl
    · exact sends_lacking v _

theorem sends_syncFdsModDepth (v : Voice) : v.Sends (v.syncFdsModDepth job) := by
  refine Sends.withSome (fun v depth => ?_) _
  split
  · exact .refl v
  · split
    · exact (sends_issue v rfl rfl rfl).of_eq rfl rfl
    · exact sends_lacking v _

theorem sends_syncContinuous {v v' : Voice} (h : v.syncContinuous job = .ok v') : v.Sends v' := by
  obtain ⟨u, hu, h⟩ := bind_ok h
  cases h
  exact ((((sends_syncVolume v).trans (sends_syncFinePitch _)).trans
    (sends_syncVibrato hu)).trans (sends_syncDuty u)).trans
    ((sends_syncFdsModSpeed _).trans (sends_syncFdsModDepth _))

/-- The instrument of a cell, which the channel can play, and its slot. -/
structure Picks (job : Job) (note : Note) (v : Voice) (index : Nat) (instrument : Instrument)
    (slot : Nat) : Prop where
  table : job.channel.instrumentTable.isSome = true
  wanted : (note.instrument <|> v.wanted.instrument) = some index
  found : job.project.instruments[index]? = some instrument
  fits : instrument.kind.fits job.channel = true
  slot : job.slots.slot index = some slot

/-- An instrument has to be sent: the driver has another one, or its patch was overwritten. -/
def needsSending (v : Voice) (job : Job) (row index : Nat) (instrument : Instrument) : Bool :=
  v.told.instrument != some index || (instrument.kind.isVrc7Custom &&
    job.patches.any (·.overwritten index v.lastPatchRow row))

/-- A voice that wants an instrument, and knows the row if its patch is a custom one. -/
def picked (v : Voice) (row index : Nat) (instrument : Instrument) : Voice :=
  { v with
    wanted := { v.wanted with instrument := some index }
    lastPatchRow := if instrument.kind.isVrc7Custom then some row else v.lastPatchRow }

/-- The ways to load the instrument of a cell. What the driver knew of the instrument is lost when
it is sent. -/
inductive SyncsInstrument (job : Job) (note : Note) (row : Nat) (v : Voice) : Voice → Prop
  | noTable (htable : job.channel.instrumentTable = none) : SyncsInstrument job note row v v
  | noInstrument (htable : job.channel.instrumentTable.isSome = true)
      (hnone : (note.instrument <|> v.wanted.instrument) = none) :
      SyncsInstrument job note row v { v with wanted := { v.wanted with instrument := none } }
  | known {index slot : Nat} {instrument : Instrument}
      (hpicks : Picks job note v index instrument slot)
      (hdue : v.needsSending job row index instrument = false) :
      SyncsInstrument job note row v (v.picked row index instrument)
  | sent {index slot : Nat} {instrument : Instrument}
      (hpicks : Picks job note v index instrument slot)
      (hdue : v.needsSending job row index instrument = true) :
      SyncsInstrument job note row v
        { (v.picked row index instrument).emit (.instrument slot) with
          told := { v.told with
            instrument := some index, duty := none, fdsModSpeed := none, fdsModDepth := none } }

theorem syncInstrument_ok {v v' : Voice} {note : Note} {row : Nat}
    (h : v.syncInstrument job note row = .ok v') : SyncsInstrument job note row v v' := by
  unfold syncInstrument at h
  split at h
  · rename_i hnone
    cases h
    exact .noTable (by simpa using hnone)
  rename_i hsome
  have htable : job.channel.instrumentTable.isSome = true := by
    simpa [Option.isSome_iff_ne_none] using hsome
  simp only at h
  split at h
  · rename_i hcurrent
    cases h
    rw [hcurrent]
    exact .noInstrument htable hcurrent
  rename_i index hcurrent
  split at h
  · cases h
  rename_i instrument hfound
  split at h
  · cases h
  rename_i hfits
  split at h
  · cases h
  rename_i slot hslot
  have hpicks : Picks job note v index instrument slot :=
    ⟨htable, hcurrent, hfound, by simpa using hfits, hslot⟩
  have hpicked : (if instrument.kind.isVrc7Custom = true then
        { v with wanted := { v.wanted with instrument := some index }, lastPatchRow := some row }
      else { v with wanted := { v.wanted with instrument := some index } }) =
      v.picked row index instrument := by
    unfold picked
    split <;> rfl
  simp only [hcurrent, hpicked] at h
  split at h
  · rename_i hdue
    cases h
    exact .sent hpicks hdue
  · rename_i hdue
    cases h
    exact .known hpicks (Bool.eq_false_of_not_eq_true hdue)

/-- An instrument that is not sent is the one that the driver has. -/
theorem told_of_known {v : Voice} {row index : Nat} {instrument : Instrument}
    (h : v.needsSending job row index instrument = false) : v.told.instrument = some index := by
  rw [needsSending, Bool.or_eq_false_iff, bne_eq_false_iff_eq] at h
  exact h.1

theorem sends_syncInstrument {v v' : Voice} {note : Note} {row : Nat}
    (h : v.syncInstrument job note row = .ok v') : v.Sends v' := by
  cases syncInstrument_ok h with
  | noTable => exact .refl _
  | noInstrument => exact (Sends.refl v).of_eq rfl rfl
  | known => exact (Sends.refl v).of_eq rfl rfl
  | @sent index slot instrument =>
    have hslot : (Instruction.instrument slot).IsSetting := trivial
    exact (sends_emit hslot trivial).of_eq rfl rfl

/-- The ways to send the arpeggio of a cell, which is none if the cell has none. -/
inductive SyncsArpeggio (job : Job) (note : Note) (v : Voice) : Voice → Prop
  | unsupported (hchannel : job.channel.supportsArpeggio = false) :
      SyncsArpeggio job note v (v.unsupported job "Arpeggio")
  | lacking (hkernel : job.kernel.supports .arpOverride = false) :
      SyncsArpeggio job note v (v.lacking job .arpOverride)
  | again {index : Nat} (hnote : note.arpeggio = some index)
      (htold : v.told.arpeggio = some (some index)) :
      SyncsArpeggio job note v { v.issue job .resetArp [] with
        told := { v.told with arpeggio := some note.arpeggio } }
  | starts {index curve : Nat} (hnote : note.arpeggio = some index)
      (hcurve : job.arpeggios[index]? = some curve) :
      SyncsArpeggio job note v { v.issueAt job .arpOverride (.envelope curve) with
        told := { v.told with arpeggio := some note.arpeggio } }
  | unchanged (hnote : note.arpeggio = none)
      (htold : job.kernel.supports .arpOverride = true → v.told.arpeggio = some none) :
      SyncsArpeggio job note v v
  | ends (hnote : note.arpeggio = none) :
      SyncsArpeggio job note v
        { (v.issueAt job .arpOverride (.envelope Tables.defaultCurve)).issue job
            .clearArpOverride [] with
          told := { v.told with arpeggio := some note.arpeggio } }

theorem syncArpeggio_ok {v v' : Voice} {note : Note} (h : v.syncArpeggio job note = .ok v') :
    SyncsArpeggio job note v v' := by
  unfold syncArpeggio at h
  simp only at h
  split at h
  · rename_i index hnote
    split at h
    · cases h
    rename_i curve hcurve
    split at h
    · rename_i hchannel
      cases h
      exact .unsupported (by simpa using hchannel)
    split at h
    · rename_i hkernel
      cases h
      exact .lacking (by simpa using hkernel)
    split at h
    · rename_i htold
      cases h
      exact .again hnote htold
    · cases h
      exact .starts hnote hcurve
  · rename_i hnote
    split at h
    · rename_i hkernel
      cases h
      exact .unchanged hnote fun hsupports => by simp [hsupports] at hkernel
    split at h
    · rename_i htold
      cases h
      exact .unchanged hnote fun _ => htold
    · cases h
      exact .ends hnote

theorem sends_syncArpeggio {v v' : Voice} {note : Note} (h : v.syncArpeggio job note = .ok v') :
    v.Sends v' := by
  cases syncArpeggio_ok h with
  | unsupported => exact sends_unsupported v _
  | lacking => exact sends_lacking v _
  | again => exact (sends_issue v rfl rfl rfl).of_eq rfl rfl
  | starts => exact (sends_issueAt v _ rfl rfl rfl).of_eq rfl rfl
  | unchanged => exact .refl v
  | ends =>
    have hcurve : v.Sends (v.issueAt job .arpOverride (.envelope Tables.defaultCurve)) :=
      sends_issueAt v _ rfl rfl rfl
    exact (hcurve.trans (sends_issue _ rfl rfl rfl)).of_eq rfl rfl

theorem sends_delays (v : Voice) (note : Note) : v.Sends (v.delays job note) := by
  unfold delays
  refine Sends.trans (Sends.withSome (fun v delay => ?_) _) (Sends.withSome (fun v delay => ?_) _)
  · exact sends_issue v rfl rfl rfl
  · exact sends_issue v rfl rfl rfl

end Voice

/-! ## What takes up a row -/

/-- An instruction that takes up one row, and what it plays. -/
inductive Strikes (channel : Channel) : Instruction → Played → Prop
  | note (value : UInt8) :
      Strikes channel (.note value false) (Instruction.struck channel value)
  | extendedNote (value : UInt8) : Strikes channel (.op .extendedNote [value] []) (.note value)
  | slide (step value target : UInt8) :
      Strikes channel (.op .slide [step, value, target] []) (.note value)
  | release : Strikes channel (.op .release [] []) .release

theorem Strikes.numbered {channel : Channel} {i : Instruction} {p : Played}
    (h : Strikes channel i p) (bound : Nat) : i.Numbered bound := by
  cases h <;> simp [Instruction.Numbered]

theorem Strikes.advancesRow {channel : Channel} {i : Instruction} {p : Played}
    (h : Strikes channel i p) : i.advancesRow = true := by
  cases h <;> rfl

/-- A step that adds settings to the row and at most one instruction that takes it up, and what the
row plays; nothing takes up an empty row. -/
structure Voice.Plays (channel : Channel) (v v' : Voice) (advances : Bool) (p : Played) : Prop where
  row : ∃ is, ∃ note : Option Instruction, v'.row = v.row ++ is ++ note.toList ∧
    (∀ i ∈ is, i.IsSetting) ∧ advances = note.isSome ∧ (∀ i ∈ note, Strikes channel i p) ∧
    (note = none → p = .empty)
  tables : v.tables.Extends v'.tables
  numbered : v.Numbered → v'.Numbered

/-- What a row plays on a channel. -/
def rowPlays (job : Job) (row : Row) : Played :=
  match row.note.bind (·.value) with
  | some (.pitch value) =>
    if job.channel = .dpcm then
      match job.project.mappings.findIdx? (·.note == value) with
      | some index => if index < 63 then .sample (index + 1) else .empty
      | none => .empty
    else .note (max 1 (min 96 value))
  | some .stop => .stop
  | some .release => if job.kernel = .extended then .release else .empty
  | none => .empty

namespace Voice

theorem Sends.plays {channel : Channel} {v v' v'' : Voice} {advances : Bool} {p : Played}
    (h : v.Sends v') (h' : v'.Plays channel v'' advances p) : v.Plays channel v'' advances p := by
  obtain ⟨is, hr, his⟩ := h.row
  obtain ⟨js, note, hr', hjs, hrest⟩ := h'.row
  refine ⟨⟨is ++ js, note, by rw [hr', hr]; simp, ?_, hrest⟩, h.tables.trans h'.tables,
    fun hv => h'.numbered (h.numbered hv)⟩
  intro i hi
  rcases List.mem_append.1 hi with hi | hi
  · exact his i hi
  · exact hjs i hi

/-- A row that only settings are sent on is empty. -/
theorem Sends.plays_empty {channel : Channel} {v v' : Voice} (h : v.Sends v') :
    v.Plays channel v' false .empty := by
  obtain ⟨is, hr, his⟩ := h.row
  exact ⟨⟨is, none, by simpa using hr, his, rfl, by simp, fun _ => rfl⟩, h.tables, h.numbered⟩

theorem plays_emit {channel : Channel} (v : Voice) {i : Instruction} {p : Played}
    (h : Strikes channel i p) : v.Plays channel (v.emit i) true p :=
  ⟨⟨[], some i, by simp [emit], by simp, rfl, by simpa using h, by simp⟩, .refl _,
    fun hv => hv.emit (h.numbered _)⟩

theorem plays_plainNote (v : Voice) {value : UInt8} (hz : value ≠ 0) (hc : job.channel ≠ .dpcm) :
    v.Plays job.channel (v.plainNote job value) true (.note value) := by
  unfold plainNote
  split
  · have hstruck : Strikes job.channel (.note value false) _ := .note value
    rw [Instruction.struck, if_neg hz, if_neg hc] at hstruck
    exact plays_emit v hstruck
  · have hsupports : job.kernel.supports .extendedNote = true := by cases job.kernel <;> rfl
    rw [issue, if_pos hsupports]
    exact plays_emit v (.extendedNote value)

theorem clamped_eq (v : Voice) {value low high : UInt8} (h : low ≤ high) (what : String) :
    (v.clamped value low high what).1 = max low (min high value) := by
  have hmin : min high value = if high ≤ value then high else value := rfl
  have hmax : max low (min high value) =
      if low ≤ min high value then min high value else low := rfl
  rw [hmax, hmin]
  simp only [clamped]
  grind

theorem plays_pitchedNote (v : Voice) (row : Row) (rest : List Row) (note : Note) (value : UInt8)
    (hc : job.channel ≠ .dpcm) :
    v.Plays job.channel (v.pitchedNote job row rest note value) true
      (.note (max 1 (min 96 value))) := by
  have hclamp : (v.clamped value noteMin noteMax "Note").1 = max 1 (min 96 value) :=
    clamped_eq v (by decide) _
  have hz : max 1 (min 96 value) ≠ 0 := by
    have hmax : max 1 (min 96 value) =
        if 1 ≤ min 96 value then min 96 value else 1 := rfl
    rw [hmax]
    grind
  unfold pitchedNote
  simp only [hclamp]
  refine (sends_clamped v value noteMin noteMax "Note").plays ?_
  split
  · exact plays_plainNote _ hz hc
  · rename_i target _
    refine (sends_clamped _ target noteMin noteMax "Slide target").plays ?_
    split
    · exact (sends_unsupported _ _).plays (plays_plainNote _ hz hc)
    split
    · exact (sends_lacking _ _).plays (plays_plainNote _ hz hc)
    split
    · exact plays_plainNote _ hz hc
    · rename_i hslide _
      rw [issue, if_pos (by simpa using hslide)]
      exact plays_emit _ (.slide _ _ _)

/-- The ways to play a sample: the driver can address the first mappings only. -/
inductive PlaysSample (job : Job) (value : UInt8) (v : Voice) : Voice → Bool → Prop
  | ignored (hnone : ∀ index, job.project.mappings.findIdx? (·.note == value) = some index →
        noteWindow.toNat ≤ index) (change : Log → Log) :
      PlaysSample job value v (v.logging change) false
  | plays {index : Nat} (hfind : job.project.mappings.findIdx? (·.note == value) = some index)
      (hlt : index < noteWindow.toNat) :
      PlaysSample job value v (v.emit (.note (UInt8.ofNat (index + 1) + noteBias) false)) true

theorem sampleNote_ok {v v' : Voice} {value : UInt8} {advances : Bool}
    (h : v.sampleNote job value = .ok (v', advances)) : PlaysSample job value v v' advances := by
  unfold sampleNote at h
  split at h
  · rename_i hfind
    cases h
    exact .ignored (fun index hindex => by rw [hfind] at hindex; cases hindex) _
  rename_i index hfind
  split at h
  · cases h
  split at h
  · cases h
  split at h
  · rename_i hover
    cases h
    exact .ignored (fun other hother => Option.some.inj (hfind.symm.trans hother) ▸ hover) _
  · rename_i hover
    cases h
    exact .plays hfind (Nat.lt_of_not_le hover)

/-- Sample notes are numbered from 1, in the order of the mappings. -/
theorem plays_sampleNote {v v' : Voice} {value : UInt8} {advances : Bool} (row : Row)
    (hc : job.channel = .dpcm) (hv : row.note.bind (·.value) = some (.pitch value))
    (h : v.sampleNote job value = .ok (v', advances)) :
    v.Plays job.channel v' advances (rowPlays job row) := by
  have hplays : rowPlays job row =
      match job.project.mappings.findIdx? (·.note == value) with
      | some index => if index < 63 then .sample (index + 1) else .empty
      | none => .empty := by
    rw [rowPlays, hv]
    simp only [if_pos hc]
  rw [hplays]
  cases sampleNote_ok h with
  | ignored hnone change =>
    have hempty : v.Plays job.channel (v.logging change) false .empty :=
      (sends_logging v change).plays_empty
    cases hfind : job.project.mappings.findIdx? (·.note == value) with
    | none => exact hempty
    | some index =>
      have hge : ¬ index < 63 := Nat.not_lt.2 (hnone index hfind)
      simp only [if_neg hge]
      exact hempty
  | @plays index hfind hlt =>
    have hlt : index < 63 := hlt
    have hstruck : Strikes job.channel (.note (UInt8.ofNat (index + 1) + noteBias) false) _ :=
      .note _
    have hslot : ∀ n < 63, UInt8.ofNat (n + 1) + noteBias ≠ 0 ∧
        (UInt8.ofNat (n + 1) + noteBias - noteBias).toNat = n + 1 := by decide +kernel
    obtain ⟨hz, hn⟩ := hslot index hlt
    rw [Instruction.struck, if_neg hz, if_pos hc, hn] at hstruck
    simp only [hfind, if_pos hlt]
    exact plays_emit v hstruck

theorem attempt_ok {α ε : Type} {v : Voice} {fail : ε → Error} {step : Except ε α} {a : α}
    (h : v.attempt fail step = .ok a) : step = .ok a := by
  cases step with
  | error e => cases h
  | ok b =>
    cases h
    rfl

/-- The ways to play the value of a cell. -/
inductive PlaysValue (job : Job) (index : Nat) (row : Row) (rest : List Row) (note : Note)
    (v : Voice) : Voice → Bool → Prop
  | sample {value : UInt8} {u v' : Voice} {advances : Bool}
      (hv : note.value = some (.pitch value)) (hc : job.channel = .dpcm)
      (hu : v.syncContinuous job = .ok u)
      (h : (u.delays job note).sampleNote job value = .ok (v', advances)) :
      PlaysValue job index row rest note v v' advances
  | pitch {value : UInt8} {u w x : Voice} (hv : note.value = some (.pitch value))
      (hc : job.channel ≠ .dpcm) (hu : v.syncInstrument job note index = .ok u)
      (hw : u.syncArpeggio job note = .ok w) (hx : w.syncContinuous job = .ok x) :
      PlaysValue job index row rest note v
        ((x.delays job note).pitchedNote job row rest note value) true
  | stop {u : Voice} (hv : note.value = some .stop) (hu : v.syncContinuous job = .ok u) :
      PlaysValue job index row rest note v ((u.delays job note).emit (.note 0 false)) true
  | release {u : Voice} (hv : note.value = some .release) (hk : job.kernel = .extended)
      (hu : v.syncContinuous job = .ok u) :
      PlaysValue job index row rest note v ((u.delays job note).emit (.op .release [] [])) true
  | ignored {u : Voice} (hv : note.value = some .release) (hk : job.kernel ≠ .extended)
      (hu : v.syncContinuous job = .ok u) (change : Log → Log) :
      PlaysValue job index row rest note v (u.logging change) false
  | silent {u : Voice} (hv : note.value = none) (hu : v.syncContinuous job = .ok u) :
      PlaysValue job index row rest note v u false

theorem playValue_ok {v v' : Voice} {index : Nat} {row : Row} {rest : List Row} {note : Note}
    {advances : Bool} (h : v.playValue job index row rest note = .ok (v', advances)) :
    PlaysValue job index row rest note v v' advances := by
  unfold playValue at h
  split at h
  · rename_i value hv
    split at h
    · rename_i hc
      obtain ⟨u, hu, h⟩ := bind_ok h
      exact .sample hv hc (attempt_ok hu) (attempt_ok h)
    · rename_i hc
      obtain ⟨u, hu, h⟩ := bind_ok h
      obtain ⟨w, hw, h⟩ := bind_ok h
      obtain ⟨x, hx, h⟩ := bind_ok h
      cases h
      exact .pitch hv hc (attempt_ok hu) (attempt_ok hw) (attempt_ok hx)
  · rename_i hv
    obtain ⟨u, hu, h⟩ := bind_ok h
    cases h
    exact .stop hv (attempt_ok hu)
  · rename_i hv
    obtain ⟨u, hu, h⟩ := bind_ok h
    cases hk : job.kernel with
    | extended =>
      simp only [hk, Kernel.allowsReleases, if_true, issue] at h
      cases h
      exact .release hv hk (attempt_ok hu)
    | classic =>
      simp only [hk, Kernel.allowsReleases, Bool.false_eq_true, if_false] at h
      cases h
      exact .ignored hv (by simp [hk]) (attempt_ok hu) _
  · rename_i hv
    obtain ⟨u, hu, h⟩ := bind_ok h
    cases h
    exact .silent hv (attempt_ok hu)

/-- **What playing the value of a cell sends.** -/
theorem plays_playValue {v v' : Voice} {index : Nat} {row : Row} {rest : List Row} {note : Note}
    {advances : Bool} (hn : row.note = some note)
    (h : v.playValue job index row rest note = .ok (v', advances)) :
    v.Plays job.channel v' advances (rowPlays job row) := by
  have hvalue : row.note.bind (·.value) = note.value := by rw [hn]; rfl
  cases playValue_ok h with
  | sample hv hc hu h =>
    exact ((sends_syncContinuous hu).trans (sends_delays _ note)).plays
      (plays_sampleNote row hc (hvalue.trans hv) h)
  | @pitch value u w x hv hc hu hw hx =>
    have hplays : rowPlays job row = .note (max 1 (min 96 value)) := by
      rw [rowPlays, hvalue, hv]
      simp only [if_neg hc]
    have hfront := ((sends_syncInstrument hu).trans (sends_syncArpeggio hw)).trans
      (sends_syncContinuous hx)
    rw [hplays]
    exact (hfront.trans (sends_delays x note)).plays (plays_pitchedNote _ row rest note value hc)
  | @stop u hv hu =>
    have hplays : rowPlays job row = .stop := by rw [rowPlays, hvalue, hv]
    rw [hplays]
    exact ((sends_syncContinuous hu).trans (sends_delays u note)).plays (plays_emit _ (.note 0))
  | @release u hv hk hu =>
    have hplays : rowPlays job row = .release := by
      rw [rowPlays, hvalue, hv]
      simp only [if_pos hk]
    rw [hplays]
    exact ((sends_syncContinuous hu).trans (sends_delays u note)).plays (plays_emit _ .release)
  | @ignored u hv hk hu change =>
    have hplays : rowPlays job row = .empty := by
      rw [rowPlays, hvalue, hv]
      simp only [if_neg hk]
    rw [hplays]
    exact ((sends_syncContinuous hu).trans (sends_logging u change)).plays_empty
  | silent hv hu =>
    have hplays : rowPlays job row = .empty := by rw [rowPlays, hvalue, hv]
    rw [hplays]
    exact (sends_syncContinuous hu).plays_empty

theorem advancesRow_of_isSetting {i : Instruction} (h : i.IsSetting) : i.advancesRow = false := by
  cases i with
  | op o bytes addresses =>
    have ho := h.1
    cases o <;> first | rfl | cases ho
  | instrument slot => rfl
  | _ => exact h.elim

/-- An instruction goes behind the settings of a row. -/
theorem insertBeforeNote_eq {channel : Channel} {p : Played} (i : Instruction)
    {is : List Instruction} {note : Option Instruction} (his : ∀ i ∈ is, i.IsSetting)
    (hnote : ∀ i ∈ note, Strikes channel i p) :
    insertBeforeNote i (is ++ note.toList) = is ++ [i] ++ note.toList := by
  induction is with
  | nil =>
    cases note with
    | none => rfl
    | some n =>
      have hn := (hnote n rfl).advancesRow
      simp [insertBeforeNote, hn]
  | cons j is ih =>
    have hj := advancesRow_of_isSetting (his j List.mem_cons_self)
    have ih := ih fun k hk => his k (List.mem_cons_of_mem _ hk)
    simp only [List.cons_append, insertBeforeNote, hj, ih, Bool.false_eq_true, if_false]

theorem mem_insertBeforeNote {i j : Instruction} {is : List Instruction}
    (h : j ∈ insertBeforeNote i is) : j = i ∨ j ∈ is := by
  induction is with
  | nil => exact .inl (List.mem_singleton.1 h)
  | cons first rest ih =>
    unfold insertBeforeNote at h
    split at h
    · exact List.mem_cons.1 h
    · rcases List.mem_cons.1 h with rfl | h
      · exact .inr List.mem_cons_self
      · exact (ih h).imp_right (List.mem_cons_of_mem _)

/-- What a row plays stays the same behind a step that sends nothing. -/
theorem Plays.silent {channel : Channel} {v v' w : Voice} {advances : Bool} {p : Played}
    (h : v.Plays channel v' advances p) (hw : v'.Sends w) (hrow : w.row = v'.row) :
    v.Plays channel w advances p := by
  obtain ⟨is, note, hr, hrest⟩ := h.row
  exact ⟨⟨is, note, hrow.trans hr, hrest⟩, h.tables.trans hw.tables,
    fun hv => hw.numbered (h.numbered hv)⟩

/-- The delta counter goes before what takes up the row. -/
theorem plays_deltaCounter {channel : Channel} {v v' : Voice} {advances : Bool} {p : Played}
    (hv : v.row = []) (h : v.Plays channel v' advances p) (value : UInt8) :
    v.Plays channel (v'.deltaCounter job value) advances p := by
  unfold deltaCounter
  split
  · exact h.silent (sends_unsupported v' _) rfl
  · have hclamp := sends_clamped v' value 0 maxDeltaCounter "Delta counter"
    have hrow : (v'.clamped value 0 maxDeltaCounter "Delta counter").2.row = v'.row := rfl
    simp only
    split
    · obtain ⟨⟨is, note, hr, his, hrest⟩, htables, hnumbered⟩ := h
      generalize v'.clamped value 0 maxDeltaCounter "Delta counter" = result at hclamp hrow
      obtain ⟨nearest, u⟩ := result
      refine ⟨⟨is ++ [.op .deltaCounter [nearest] []], note, ?_, ?_, hrest⟩,
        htables.trans hclamp.tables, fun hv i hi => ?_⟩
      · rw [hv, List.nil_append] at hr ⊢
        simp only at hrow ⊢
        rw [hrow, hr, insertBeforeNote_eq _ his hrest.2.1]
      · intro i hi
        rcases List.mem_append.1 hi with hi | hi
        · exact his i hi
        · obtain rfl := List.mem_singleton.1 hi
          exact ⟨rfl, rfl, rfl, by simp⟩
      · rcases mem_insertBeforeNote hi with rfl | hi
        · simp [Instruction.Numbered]
        · exact hclamp.numbered (hnumbered hv) i hi
    · exact h.silent (hclamp.trans (sends_lacking _ _)) rfl

/-- State behind the tempo of a row. -/
def tempoOf (v : Voice) (job : Job) (row : Row) (speed : Option UInt8) : Voice :=
  if job.carriesTempo then (v.wantTempo job row speed).syncTempo job
  else v.wantTempo job row speed

/-- The ways to process a row: behind its tempo, a cell changes what is wanted, plays its value and
puts the delta counter before it. -/
inductive PlaysRow (job : Job) (index : Nat) (row : Row) (speed : Option UInt8) (rest : List Row)
    (v : Voice) : Voice → Bool → Prop
  | silent (hn : row.note = none) :
      PlaysRow job index row speed rest v (v.tempoOf job row speed) false
  | cell {note : Note} {u : Voice} {advances : Bool} (hn : row.note = some note)
      (hu : ((v.tempoOf job row speed).want job note).playValue job index row rest note =
        .ok (u, advances)) :
      PlaysRow job index row speed rest v (u.withSome note.deltaCounter (deltaCounter · job))
        advances

theorem processRow_ok {v v' : Voice} {index : Nat} {row : Row} {speed : Option UInt8}
    {rest : List Row} {advances : Bool}
    (h : v.processRow job index row speed rest = .ok (v', advances)) :
    PlaysRow job index row speed rest v v' advances := by
  unfold processRow at h
  simp only at h
  split at h
  · rename_i hn
    cases h
    exact .silent hn
  · rename_i note hn
    obtain ⟨⟨u, advanced⟩, hu, h⟩ := bind_ok h
    cases h
    exact .cell hn hu

theorem sends_tempoOf (v : Voice) (row : Row) (speed : Option UInt8) :
    v.Sends (v.tempoOf job row speed) := by
  unfold tempoOf
  split
  · exact (sends_wantTempo v row speed).trans (sends_syncTempo _)
  · exact sends_wantTempo v row speed

/-- **What a row sends**: settings, and at most one instruction that takes it up and plays what the
cell asks for. -/
theorem plays_processRow {v v' : Voice} {index : Nat} {row : Row} {speed : Option UInt8}
    {rest : List Row} {advances : Bool} (hv : v.row = [])
    (h : v.processRow job index row speed rest = .ok (v', advances)) :
    v.Plays job.channel v' advances (rowPlays job row) := by
  have htempo : v.Sends (v.tempoOf job row speed) := sends_tempoOf v row speed
  cases processRow_ok h with
  | silent hnone =>
    have hplays : rowPlays job row = .empty := by rw [rowPlays, hnone]; rfl
    rw [hplays]
    exact htempo.plays_empty
  | @cell note u _ hnote hresult =>
    have hvalue := (htempo.trans (sends_want _ note)).plays (plays_playValue hnote hresult)
    cases hd : note.deltaCounter with
    | none => exact hvalue
    | some value => exact plays_deltaCounter hv hvalue value

end Voice

end Stream

end Chiptune
