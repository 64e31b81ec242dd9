import Chiptune.Proofs.Passes

/-!
# Streams and the capabilities of their channel

A cell may carry an attribute that its channel does not have; it is reported and changes no setting
(`Settings.Within`). Yet what is forgotten at the loop mark is decided by the cells alone
(`Told.forget`), so that behind the mark the driver is told the initial value of such a setting
again (`Resets`).

* `Voice.within_processRow`, `Runs.fit`: **what a row and a run send**, by an invariant of the
  voice.
* `generate_fits`: every instruction of a stream is one that its channel has, but for the resets.
-/

set_option autoImplicit false

namespace Chiptune

/-! ## What a channel has -/

/-- Whether a channel has the setting or the effect of an operation. -/
def Channel.has (c : Channel) : Op → Bool
  | .volume => c.supportsVolume
  | .finePitch => c.supportsFinePitch
  | .vibratoOverride | .clearPitchOverride => c.supportsVibrato
  | .duty => c.supportsDuty
  | .fdsModSpeed | .fdsModDepth => c.supportsFdsModulation
  | .arpOverride | .clearArpOverride | .resetArp => c.supportsArpeggio
  | .slide => c.supportsSlide
  | .deltaCounter => c.supportsDeltaCounter
  | _ => true

/-- Whether an instruction is one for a channel. -/
def Channel.allows (c : Channel) : Instruction → Bool
  | .instrument _ => c.instrumentTable.isSome
  | .op o _ _ => c.has o
  | _ => true

namespace Stream

variable {job : Job} {rows : List Row} {speeds : List (Option UInt8)} {loopAt : Option Nat}

/-- Some cell of a channel makes a setting unknown at the loop mark. -/
def Forgotten (rows : List Row) (loopAt : Option Nat) (changes : Note → Bool) : Prop :=
  loopAt.isSome = true ∧ ∃ note ∈ cellsOf rows, changes note = true

/-- **The instructions for what a channel does not have**: the initial value of a setting, in a song
that loops and has a cell with this attribute. -/
inductive Resets (channel : Channel) (rows : List Row) (loopAt : Option Nat) : Instruction → Prop
  | volume : channel.supportsVolume = false → Forgotten rows loopAt (·.volume.isSome) →
      Resets channel rows loopAt (.op .volume [initialVolume] [])
  | finePitch : channel.supportsFinePitch = false → Forgotten rows loopAt (·.finePitch.isSome) →
      Resets channel rows loopAt (.op .finePitch [0] [])
  | vibrato (id : Nat) : channel.supportsVibrato = false →
      Forgotten rows loopAt (·.vibrato.isSome) →
      Resets channel rows loopAt (.op .vibratoOverride [] [.symbol id])
  | clearPitch : channel.supportsVibrato = false → Forgotten rows loopAt (·.vibrato.isSome) →
      Resets channel rows loopAt (.op .clearPitchOverride [] [])

/-- An instruction for the channel, or one of the resets. -/
def Fits (channel : Channel) (rows : List Row) (loopAt : Option Nat) (i : Instruction) : Prop :=
  channel.allows i = true ∨ Resets channel rows loopAt i

/-! ## The invariant of a voice -/

/-- What a channel does not have keeps its initial value. -/
structure Settings.Within (channel : Channel) (s : Settings) : Prop where
  volume : channel.supportsVolume = false → s.volume = initialVolume
  finePitch : channel.supportsFinePitch = false → s.finePitch = 0
  vibrato : channel.supportsVibrato = false → s.vibrato = none
  duty : channel.supportsDuty = false → s.duty = none
  fdsModSpeed : channel.supportsFdsModulation = false → s.fdsModSpeed = none
  fdsModDepth : channel.supportsFdsModulation = false → s.fdsModDepth = none

/-- **No attribute of a cell changes a setting that the channel does not have.** -/
theorem Settings.Within.after {channel : Channel} {s : Settings} (h : s.Within channel)
    (note : Note) (i : Option Nat) :
    Settings.Within channel { s.after channel note with instrument := i } where
  volume hc := by simp only [Settings.after, hc, h.volume hc, Bool.false_eq_true, if_false]
  finePitch hc := by simp only [Settings.after, hc, h.finePitch hc, Bool.false_eq_true, if_false]
  vibrato hc := by simp only [Settings.after, hc, h.vibrato hc, Bool.false_eq_true, if_false]
  duty hc := by simp only [Settings.after, hc, h.duty hc, Bool.false_eq_true, if_false]
  fdsModSpeed hc := by
    simp only [Settings.after, hc, h.fdsModSpeed hc, Bool.false_eq_true, if_false]
  fdsModDepth hc := by
    simp only [Settings.after, hc, h.fdsModDepth hc, Bool.false_eq_true, if_false]

/-- The driver was told the initial value of what the channel does not have, unless this was
forgotten at the loop mark. -/
structure Told.Within (channel : Channel) (rows : List Row) (loopAt : Option Nat) (told : Told) :
    Prop where
  volume : channel.supportsVolume = false →
    told.volume = some initialVolume ∨ Forgotten rows loopAt (·.volume.isSome)
  finePitch : channel.supportsFinePitch = false →
    told.finePitch = some 0 ∨ Forgotten rows loopAt (·.finePitch.isSome)
  vibrato : channel.supportsVibrato = false →
    told.vibrato = some none ∨ Forgotten rows loopAt (·.vibrato.isSome)

theorem Told.Within.forget {channel : Channel} {loop : Nat} {told : Told} (song : Song)
    (h : told.Within channel rows (some loop)) :
    (told.forget song rows speeds).Within channel rows (some loop) := by
  have hkeep : ∀ {α : Type} {p : Note → Bool} {value : Option α} {x : α},
      value = some x ∨ Forgotten rows (some loop) p →
      keepUnless ((cellsOf rows).any p) value = some x ∨ Forgotten rows (some loop) p := by
    intro α p value x hvalue
    cases hany : (cellsOf rows).any p with
    | true => exact .inr ⟨rfl, List.any_eq_true.1 hany⟩
    | false => exact hvalue
  exact
    { volume := fun hc => hkeep (h.volume hc)
      finePitch := fun hc => hkeep (h.finePitch hc)
      vibrato := fun hc => hkeep (h.vibrato hc) }

/-- **A voice within the capabilities of its channel**: in what the song asks for, in what the
driver was told, and in what the current row sends. -/
structure Voice.Within (job : Job) (rows : List Row) (loopAt : Option Nat) (v : Voice) : Prop where
  wanted : v.wanted.settings.Within job.channel
  told : v.told.Within job.channel rows loopAt
  row : ∀ i ∈ v.row, Fits job.channel rows loopAt i

namespace Voice

variable {v : Voice}

/-! ## Steps -/

theorem Within.logging (h : v.Within job rows loopAt) (change : Log → Log) :
    (v.logging change).Within job rows loopAt :=
  { h with }

theorem Within.clamped (h : v.Within job rows loopAt) (value low high : UInt8) (what : String) :
    (v.clamped value low high what).2.Within job rows loopAt :=
  h.logging _

theorem Within.emit (h : v.Within job rows loopAt) {i : Instruction}
    (hi : Fits job.channel rows loopAt i) : (v.emit i).Within job rows loopAt :=
  { h with
    row := fun j hj => by
      rcases List.mem_append.1 hj with hj | hj
      · exact h.row j hj
      · rw [List.mem_singleton.1 hj]
        exact hi }

theorem Within.issue (h : v.Within job rows loopAt) {op : Op} {bytes : List UInt8}
    (hi : Fits job.channel rows loopAt (.op op bytes [])) :
    (v.issue job op bytes).Within job rows loopAt := by
  unfold Voice.issue
  split
  · exact h.emit hi
  · exact h.logging _

theorem Within.issueAt (h : v.Within job rows loopAt) {op : Op} (label : Label)
    (hi : ∀ id, Fits job.channel rows loopAt (.op op [] [.symbol id])) :
    (v.issueAt job op label).Within job rows loopAt := by
  unfold Voice.issueAt
  split
  · have htables : Within job rows loopAt
        { v with tables := (v.tables.symbol (label.text job.stem)).2 } := { h with }
    exact htables.emit (hi _)
  · exact h.logging _

/-- An operation of the channel fits, whatever its operands are. -/
theorem fits_op (op : Op) (h : job.channel.has op = true) (bytes : List UInt8)
    (addresses : List Target) : Fits job.channel rows loopAt (.op op bytes addresses) := .inl h

theorem Within.tell (h : v.Within job rows loopAt) {told : Told}
    (ht : told.Within job.channel rows loopAt) : Within job rows loopAt { v with told } :=
  { h with told := ht }

theorem Within.withSome {α : Type} (h : v.Within job rows loopAt) {step : Voice → α → Voice}
    {value : Option α} (hstep : ∀ a, value = some a → (step v a).Within job rows loopAt) :
    (v.withSome value step).Within job rows loopAt := by
  cases value with
  | none => exact h
  | some a => exact hstep a rfl

theorem Within.wantTempo (h : v.Within job rows loopAt) (row : Row) (speed : Option UInt8) :
    (v.wantTempo job row speed).Within job rows loopAt := by
  unfold Voice.wantTempo
  split
  · split
    · exact { h with }
    · exact h
  · refine Within.logging ?_ _
    split
    · exact { h with }
    · exact h

theorem Within.syncTempo (h : v.Within job rows loopAt) :
    (v.syncTempo job).Within job rows loopAt := by
  unfold Voice.syncTempo
  split
  · simp only
    split
    · exact h
    split
    · exact (h.issue (fits_op .speed rfl _ _)).tell { h.told with }
    · exact h.logging _
  · simp only
    split
    · exact h
    split
    · exact (h.issueAt _ fun _ => fits_op .groove rfl _ _).tell { h.told with }
    · exact h.logging _

theorem Within.want (h : v.Within job rows loopAt) (note : Note) :
    (v.want job note).Within job rows loopAt := by
  obtain ⟨w, htakes, hw⟩ := takes_want job v note
  constructor
  · rw [htakes.wanted, hw]
    exact h.wanted.after note _
  · rw [htakes.told]
    exact h.told
  · rw [htakes.row]
    exact h.row

theorem Within.syncVolume (h : v.Within job rows loopAt) :
    (v.syncVolume job).Within job rows loopAt := by
  unfold Voice.syncVolume
  simp only
  split
  · exact h
  rename_i hdue
  split
  · have hfits : Fits job.channel rows loopAt (.op .volume [v.wanted.volume] []) := by
      cases hc : job.channel.supportsVolume with
      | true => exact fits_op .volume hc _ _
      | false =>
        have hwanted : v.wanted.volume = initialVolume := h.wanted.volume hc
        rw [hwanted] at hdue ⊢
        exact .inr (.volume hc ((h.told.volume hc).resolve_left hdue))
    exact (h.issue hfits).tell { h.told with
      volume := fun hc => .inl (congrArg some (h.wanted.volume hc)) }
  · exact h.logging _

theorem Within.syncFinePitch (h : v.Within job rows loopAt) :
    (v.syncFinePitch job).Within job rows loopAt := by
  unfold Voice.syncFinePitch
  simp only
  split
  · exact h
  rename_i hdue
  split
  · have hfits : Fits job.channel rows loopAt (.op .finePitch [v.wanted.finePitch.toUInt8] []) := by
      cases hc : job.channel.supportsFinePitch with
      | true => exact fits_op .finePitch hc _ _
      | false =>
        have hwanted : v.wanted.finePitch = 0 := h.wanted.finePitch hc
        rw [hwanted] at hdue ⊢
        exact .inr (.finePitch hc ((h.told.finePitch hc).resolve_left hdue))
    exact (h.issue hfits).tell { h.told with
      finePitch := fun hc => .inl (congrArg some (h.wanted.finePitch hc)) }
  · exact h.logging _

/-- A channel is asked only for what it has. -/
theorem has_of_some {α : Type} {has : Bool} {value : Option α} {a : α}
    (h : has = false → value = none) (hvalue : value = some a) : has = true := by
  cases has with
  | true => rfl
  | false =>
    rw [h rfl] at hvalue
    cases hvalue

theorem Within.syncVibrato {v' : Voice} (h : v.Within job rows loopAt)
    (hv : v.syncVibrato job = .ok v') : v'.Within job rows loopAt := by
  have htold : Told.Within job.channel rows loopAt
      { v.told with vibrato := some v.wanted.vibrato } :=
    { h.told with vibrato := fun hc => .inl (congrArg some (h.wanted.vibrato hc)) }
  cases syncVibrato_ok hv with
  | known => exact h
  | @starts setting index tables _ hwanted =>
    have hc := has_of_some h.wanted.vibrato hwanted
    have htables : Within job rows loopAt { v with tables } := { h with }
    exact (htables.issueAt _ fun _ => fits_op .vibratoOverride hc _ _).tell htold
  | ends hdue hwanted =>
    rw [hwanted] at hdue
    have hforgotten := fun hc => (h.told.vibrato hc).resolve_left hdue
    have hcurve : ∀ id, Fits job.channel rows loopAt (.op .vibratoOverride [] [.symbol id]) := by
      intro id
      cases hc : job.channel.supportsVibrato with
      | true => exact fits_op .vibratoOverride hc _ _
      | false => exact .inr (.vibrato id hc (hforgotten hc))
    have hclear : Fits job.channel rows loopAt (.op .clearPitchOverride [] []) := by
      cases hc : job.channel.supportsVibrato with
      | true => exact fits_op .clearPitchOverride hc _ _
      | false => exact .inr (.clearPitch hc (hforgotten hc))
    exact ((h.issueAt _ hcurve).issue hclear).tell htold
  | lacking => exact h.logging _

theorem Within.syncDuty (h : v.Within job rows loopAt) :
    (v.syncDuty job).Within job rows loopAt := by
  refine h.withSome fun duty hduty => ?_
  have hc := has_of_some h.wanted.duty hduty
  split
  · exact h
  split
  · exact (h.issue (fits_op .duty hc _ _)).tell { h.told with }
  · exact h.logging _

theorem Within.syncFdsModSpeed (h : v.Within job rows loopAt) :
    (v.syncFdsModSpeed job).Within job rows loopAt := by
  refine h.withSome fun speed hspeed => ?_
  have hc := has_of_some h.wanted.fdsModSpeed hspeed
  split
  · exact h
  split
  · exact (h.issue (fits_op .fdsModSpeed hc _ _)).tell { h.told with }
  · exact h.logging _

theorem Within.syncFdsModDepth (h : v.Within job rows loopAt) :
    (v.syncFdsModDepth job).Within job rows loopAt := by
  refine h.withSome fun depth hdepth => ?_
  have hc := has_of_some h.wanted.fdsModDepth hdepth
  split
  · exact h
  split
  · exact (h.issue (fits_op .fdsModDepth hc _ _)).tell { h.told with }
  · exact h.logging _

theorem Within.syncContinuous {v' : Voice} (h : v.Within job rows loopAt)
    (hv : v.syncContinuous job = .ok v') : v'.Within job rows loopAt := by
  obtain ⟨u, hu, hv⟩ := bind_ok hv
  cases hv
  exact ((h.syncVolume.syncFinePitch.syncVibrato hu).syncDuty.syncFdsModSpeed).syncFdsModDepth

/-- The sample channel alone has no arpeggios. -/
theorem supportsArpeggio_of_ne_dpcm (hc : job.channel ≠ .dpcm) :
    job.channel.supportsArpeggio = true := by
  cases hchannel : job.channel <;> first | rfl | exact absurd hchannel hc

theorem Within.syncInstrument {v' : Voice} {note : Note} {row : Nat}
    (h : v.Within job rows loopAt) (hv : v.syncInstrument job note row = .ok v') :
    v'.Within job rows loopAt := by
  have hwanted : ∀ i, Settings.Within job.channel { v.wanted.settings with instrument := i } :=
    fun _ => { h.wanted with }
  cases syncInstrument_ok hv with
  | noTable => exact h
  | noInstrument => exact { h with wanted := hwanted _ }
  | known => exact { h with wanted := hwanted _ }
  | @sent i slot instrument hpicks =>
    have hemit := h.emit (i := .instrument slot) (.inl hpicks.table)
    exact { wanted := hwanted _, told := { h.told with }, row := hemit.row }

theorem Within.syncArpeggio {v' : Voice} {note : Note} (hc : job.channel ≠ .dpcm)
    (h : v.Within job rows loopAt) (hv : v.syncArpeggio job note = .ok v') :
    v'.Within job rows loopAt := by
  have harp := supportsArpeggio_of_ne_dpcm hc
  have htold : Told.Within job.channel rows loopAt
      { v.told with arpeggio := some note.arpeggio } := { h.told with }
  have hcurve : ∀ id, Fits job.channel rows loopAt (.op .arpOverride [] [.symbol id]) :=
    fun _ => fits_op .arpOverride harp _ _
  cases syncArpeggio_ok hv with
  | unsupported => exact h.logging _
  | lacking => exact h.logging _
  | again => exact (h.issue (fits_op .resetArp harp _ _)).tell htold
  | starts => exact (h.issueAt _ hcurve).tell htold
  | unchanged => exact h
  | ends => exact ((h.issueAt _ hcurve).issue (fits_op .clearArpOverride harp _ _)).tell htold

theorem Within.delays (h : v.Within job rows loopAt) (note : Note) :
    (v.delays job note).Within job rows loopAt := by
  have hnote : (v.withSome note.noteDelay fun v delay => v.issue job .noteDelay [delay]).Within
      job rows loopAt :=
    h.withSome fun _ _ => h.issue (fits_op .noteDelay rfl _ _)
  unfold Voice.delays
  exact hnote.withSome fun delay _ => hnote.issue (fits_op .cutDelay rfl [delay] [])

theorem Within.plainNote (h : v.Within job rows loopAt) (value : UInt8) :
    (v.plainNote job value).Within job rows loopAt := by
  unfold Voice.plainNote
  split
  · exact h.emit (.inl rfl)
  · exact h.issue (fits_op .extendedNote rfl _ _)

theorem Within.pitchedNote (h : v.Within job rows loopAt) (row : Row) (rest : List Row)
    (note : Note) (value : UInt8) :
    (v.pitchedNote job row rest note value).Within job rows loopAt := by
  have hclamped := h.clamped value noteMin noteMax "Note"
  unfold Voice.pitchedNote
  simp only
  split
  · exact hclamped.plainNote _
  · rename_i target _
    have htarget := hclamped.clamped target noteMin noteMax "Slide target"
    split
    · exact (htarget.logging _).plainNote _
    split
    · exact (htarget.logging _).plainNote _
    split
    · exact htarget.plainNote _
    · rename_i hslide _ _
      have hc : job.channel.supportsSlide = true := by simpa using hslide
      exact htarget.issue (fits_op .slide hc _ _)

theorem Within.sampleNote {v' : Voice} {value : UInt8} {advances : Bool}
    (h : v.Within job rows loopAt) (hv : v.sampleNote job value = .ok (v', advances)) :
    v'.Within job rows loopAt := by
  cases sampleNote_ok hv with
  | ignored _ change => exact h.logging change
  | plays => exact h.emit (.inl rfl)

theorem Within.playValue {v' : Voice} {index : Nat} {row : Row} {rest : List Row} {note : Note}
    {advances : Bool} (h : v.Within job rows loopAt)
    (hv : v.playValue job index row rest note = .ok (v', advances)) :
    v'.Within job rows loopAt := by
  cases playValue_ok hv with
  | sample _ _ hu hv => exact ((h.syncContinuous hu).delays note).sampleNote hv
  | pitch _ hc hu hw hx =>
    have hsettings := ((h.syncInstrument hu).syncArpeggio hc hw).syncContinuous hx
    exact (hsettings.delays note).pitchedNote row rest note _
  | stop _ hu => exact ((h.syncContinuous hu).delays note).emit (.inl rfl)
  | release _ _ hu => exact ((h.syncContinuous hu).delays note).emit (.inl rfl)
  | ignored _ _ hu change => exact (h.syncContinuous hu).logging change
  | silent _ hu => exact h.syncContinuous hu

theorem Within.deltaCounter (h : v.Within job rows loopAt) (value : UInt8) :
    (v.deltaCounter job value).Within job rows loopAt := by
  unfold Voice.deltaCounter
  split
  · exact h.logging _
  rename_i hcounter
  have hc : job.channel.supportsDeltaCounter = true := by simpa using hcounter
  have hclamped := h.clamped value 0 maxDeltaCounter "Delta counter"
  simp only
  split
  · exact { hclamped with
      row := fun i hi => by
        rcases mem_insertBeforeNote hi with rfl | hi
        · exact fits_op .deltaCounter hc _ _
        · exact hclamped.row i hi }
  · exact hclamped.logging _

theorem Within.tempoOf (h : v.Within job rows loopAt) (row : Row) (speed : Option UInt8) :
    (v.tempoOf job row speed).Within job rows loopAt := by
  unfold Voice.tempoOf
  split
  · exact (h.wantTempo row speed).syncTempo
  · exact h.wantTempo row speed

/-- **A row keeps a voice within the capabilities of its channel.** -/
theorem within_processRow {u : Voice} {index : Nat} {row : Row} {speed : Option UInt8}
    {rest : List Row} {advances : Bool} (h : v.Within job rows loopAt)
    (hv : v.processRow job index row speed rest = .ok (u, advances)) :
    u.Within job rows loopAt := by
  have htempo := h.tempoOf row speed
  cases processRow_ok hv with
  | silent => exact htempo
  | @cell note x _ _ hresult =>
    have hx := (htempo.want note).playValue hresult
    exact hx.withSome fun value _ => hx.deltaCounter value

end Voice

/-! ## Runs -/

theorem within_marked {index : Nat} {v : Voice} (h : v.Within job rows loopAt) :
    (marked job rows speeds loopAt index v).2.Within job rows loopAt := by
  unfold marked
  split
  · rename_i hloop
    subst hloop
    exact { h with told := h.told.forget job.song }
  · exact h

theorem within_opening (u : Tables) :
    (opening job rows u).Within job rows loopAt where
  wanted := ⟨fun _ => rfl, fun _ => rfl, fun _ => rfl, fun _ => rfl, fun _ => rfl, fun _ => rfl⟩
  told := ⟨fun _ => .inl rfl, fun _ => .inl rfl, fun _ => .inl rfl⟩
  row := by simp [opening, Voice.start, Voice.logging]

/-- **The rows of a run send what the channel has**, but for the resets. -/
theorem Runs.fit {index : Nat} {rest : List Row} {later : List (Option UInt8)} {v v' : Voice}
    {pieces : List Piece} (h : Runs job rows speeds loopAt index rest later v pieces v')
    (hv : v.Within job rows loopAt) :
    ∀ is advances, .row is advances ∈ pieces → ∀ i ∈ is, Fits job.channel rows loopAt i := by
  induction h with
  | nil => simp
  | @cons index row rest later v u v' advances more hrow _ ih =>
    have hu := Voice.within_processRow (within_marked hv) hrow
    intro is adv hmem
    rcases mem_marked_row hmem with ⟨rfl, rfl⟩ | hmem
    · exact hu.row
    · exact ih { hu with row := by simp } is adv hmem

/-- **Every instruction of a stream is one that its channel has**, but for the initial values that
are told again behind the loop mark of what the cells ask for and the channel does not have. -/
theorem generate_fits {t t' : Tables} {tokens : List Token}
    (h : generate job t = (.ok tokens, t')) :
    ∃ rows, job.song.rows (job.song.track job.channel) = .ok rows ∧
      ∀ i ∈ disassemble job.kernel tokens,
        Fits job.channel rows (loopRow job.song rows {}).1 i := by
  obtain ⟨rows, speeds, loopAt, pieces, v, hrows, -, hloopAt, hruns, htokens, -⟩ := generate_ok h
  refine ⟨rows, hrows, ?_⟩
  rw [disassemble_encodeAll (hruns.hasOperands rfl v) htokens,
    loopRow_log job.song rows {} (Voice.start job t).tables.log, ← hloopAt]
  intro i hi
  rcases List.mem_append.1 hi with hi | hi
  · exact forall_join job.kernel (fun _ _ => .inl rfl) (fun _ => .inl rfl) (fun _ _ => .inl rfl)
      (hruns.fit (within_opening t)) {} i hi
  · rw [List.mem_singleton.1 hi]
    unfold lastInstruction
    split <;> exact .inl rfl

/-- A looped note on the triangle channel, with a volume that the channel does not have. -/
def loudTriangle : Job :=
  { loopedTune with
    song :=
      { name := "tune", length := 1, patternLength := 1, loopPoint := some 0
        tracks := [{
          channel := .triangle
          patterns := [{ notes := [{ row := 0, value := some (.pitch 40), volume := some 5 }] }]
          order := [some 0] }] }
    channel := .triangle
    carriesTempo := false }

theorem generate_loudTriangle : ∃ tokens t, generate loudTriangle {} = (.ok tokens, t) ∧
    .op .volume [initialVolume] [] ∈ disassemble .extended tokens := by
  have hany : (generate loudTriangle {}).1.toOption.any
      (fun tokens => (disassemble .extended tokens).contains (.op .volume [initialVolume] [])) =
      true := by decide +kernel
  obtain ⟨tokens, htokens, hvolume⟩ := ok_of_any hany
  exact ⟨tokens, _, Prod.ext htokens rfl, by simpa using hvolume⟩

/-- The triangle plays its note with an instruction that it does not have. -/
theorem generate_fits_loudTriangle : ∃ tokens t, generate loudTriangle {} = (.ok tokens, t) ∧
    ∃ rows, loudTriangle.song.rows (loudTriangle.song.track .triangle) = .ok rows ∧
      ∀ i ∈ disassemble .extended tokens,
        Fits .triangle rows (loopRow loudTriangle.song rows {}).1 i := by
  obtain ⟨tokens, t, h, -⟩ := generate_loudTriangle
  exact ⟨tokens, t, h, generate_fits h⟩

/-- Not every instruction of a stream is one that its channel has. -/
theorem not_allows_generate : ¬ ∀ (job : Job) (t t' : Tables) (tokens : List Token),
    generate job t = (.ok tokens, t') →
      ∀ i ∈ disassemble job.kernel tokens, job.channel.allows i = true := by
  intro hall
  obtain ⟨tokens, t, h, hmem⟩ := generate_loudTriangle
  have hallows := hall loudTriangle {} t tokens h _ hmem
  cases hallows

end Stream

end Chiptune
