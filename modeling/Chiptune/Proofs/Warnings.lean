import Chiptune.Proofs.Rows
import Chiptune.Proofs.Tables

/-!
# Warnings do not change the data

A channel only adds to the log of the shared tables, and in a song with grooves the speed that the
driver was told is never read. Two states of a channel that differ in these only are alike
(`Alike`): a step that succeeds from one of them succeeds from the other, and leaves them alike.

* `Alike.processRow`: **a row does the same to states that are alike**.
-/

set_option autoImplicit false

namespace Chiptune

/-! ## Steps that may fail -/

/-- If the first step gives a result, so does the second one, and they are related. -/
def Yields {ε ε' α β : Type} (R : α → β → Prop) (x : Except ε α) (y : Except ε' β) : Prop :=
  ∀ a, x = .ok a → ∃ b, y = .ok b ∧ R a b

namespace Yields

variable {ε ε' α β γ δ : Type} {R : α → β → Prop} {Q : γ → δ → Prop}

theorem ok {a : α} {b : β} (h : R a b) : Yields R (.ok a : Except ε α) (.ok b : Except ε' β) := by
  rintro _ ⟨⟩
  exact ⟨b, rfl, h⟩

theorem error (e : ε) (y : Except ε' β) : Yields R (.error e) y := by
  rintro _ ⟨⟩

theorem bind {x : Except ε α} {y : Except ε' β} {f : α → Except ε γ} {g : β → Except ε' δ}
    (h : Yields R x y) (hfg : ∀ a b, R a b → Yields Q (f a) (g b)) :
    Yields Q (x >>= f) (y >>= g) := by
  intro c hc
  obtain ⟨a, ha, hc⟩ := bind_ok hc
  obtain ⟨b, rfl, hab⟩ := h a ha
  exact hfg a b hab c hc

theorem ite {p : Prop} [Decidable p] {x x' : Except ε α} {y y' : Except ε' β}
    (hthen : p → Yields R x y) (helse : ¬ p → Yields R x' y') :
    Yields R (if p then x else x') (if p then y else y') := by
  by_cases hp : p
  · rw [if_pos hp, if_pos hp]
    exact hthen hp
  · rw [if_neg hp, if_neg hp]
    exact helse hp

end Yields

/-! ## Tables -/

/-- The results are the same, in tables that differ in their warnings only. -/
def UpToLog {α : Type} (x y : α × Tables) : Prop := ∃ log, y = (x.1, { x.2 with log })

/-- The curve of a vibrato does not depend on the warnings. -/
theorem Tables.vibrato_log (t : Tables) (log : Log) (v : Vibrato) :
    Yields UpToLog (t.vibrato v) ({ t with log }.vibrato v) := by
  unfold Tables.vibrato
  simp only
  cases t.vibratos.lookup (Tables.vibratoKey v) with
  | some index => exact .ok ⟨log, rfl⟩
  | none =>
    simp only
    have hsame := Curve.encode_log
      (Curve.vibrato (Tables.vibratoKey v).1 (Tables.vibratoKey v).2) ⟨false, true⟩ t.log log
    refine Yields.bind (R := fun x y => x.1 = y.1) (fun x hx => ?_) ?_
    · rw [hx] at hsame
      cases hy : Curve.encode (Curve.vibrato (Tables.vibratoKey v).1 (Tables.vibratoKey v).2)
          ⟨false, true⟩ log with
      | error e =>
        rw [hy] at hsame
        cases hsame
      | ok y =>
        rw [hy] at hsame
        exact ⟨y, rfl, Except.ok.inj hsame⟩
    · rintro ⟨curve, after⟩ ⟨_, after'⟩ rfl
      cases curve with
      | none => exact .ok ⟨after', rfl⟩
      | some bytes => exact .ok ⟨after', rfl⟩

namespace Stream

variable {job : Job}

/-! ## States that are alike -/

/-- The voice with another log, and told another speed. -/
def Voice.relogged (v : Voice) (log : Log) (speed : Option UInt8) : Voice :=
  { v with told := { v.told with speed }, tables := { v.tables with log } }

/-- The second voice differs from the first one in its warnings only, and in the speed that the
driver was told if speeds are not used. -/
inductive Alike (job : Job) (v : Voice) : Voice → Prop
  | mk (log : Log) {speed : Option UInt8} :
      (job.project.tempoMode = .speed → speed = v.told.speed) → Alike job v (v.relogged log speed)

namespace Alike

variable {v w : Voice}

theorem eq_relogged (h : Alike job v w) : ∃ log speed, w = v.relogged log speed := by
  obtain ⟨log, -⟩ := h
  exact ⟨_, _, rfl⟩

theorem speed (h : Alike job v w) (hmode : job.project.tempoMode = .speed) :
    w.told.speed = v.told.speed := by
  obtain ⟨log, hspeed⟩ := h
  exact hspeed hmode

theorem logging (h : Alike job v w) (change change' : Log → Log) :
    Alike job (v.logging change) (w.logging change') := by
  obtain ⟨log, hspeed⟩ := h
  exact ⟨change' log, hspeed⟩

theorem emit (h : Alike job v w) (i : Instruction) : Alike job (v.emit i) (w.emit i) := by
  obtain ⟨log, hspeed⟩ := h
  exact ⟨log, hspeed⟩

theorem ite {p : Prop} [Decidable p] {v' w' : Voice} (hthen : p → Alike job v w)
    (helse : ¬ p → Alike job v' w') :
    Alike job (if p then v else v') (if p then w else w') := by
  by_cases hp : p
  · rw [if_pos hp, if_pos hp]
    exact hthen hp
  · rw [if_neg hp, if_neg hp]
    exact helse hp

theorem issue (h : Alike job v w) (op : Op) (bytes : List UInt8) :
    Alike job (v.issue job op bytes) (w.issue job op bytes) :=
  ite (fun _ => h.emit _) fun _ => h.logging _ _

theorem issueAt (h : Alike job v w) (op : Op) (label : Label) :
    Alike job (v.issueAt job op label) (w.issueAt job op label) := by
  refine ite (fun _ => ?_) fun _ => h.logging _ _
  obtain ⟨log, hspeed⟩ := h
  exact ⟨log, hspeed⟩

/-- What the driver was told is changed alike. -/
theorem retold (h : Alike job v w) {told told' : Told}
    (htold : told' = { told with speed := told'.speed })
    (hspeed : job.project.tempoMode = .speed → told'.speed = told.speed) :
    Alike job { v with told } { w with told := told' } := by
  obtain ⟨log, -⟩ := h
  rw [htold]
  exact ⟨log, hspeed⟩

/-- What the song asks for is changed alike. -/
theorem rewanted (h : Alike job v w) (wanted : Wanted) :
    Alike job { v with wanted } { w with wanted } := by
  obtain ⟨log, hspeed⟩ := h
  exact ⟨log, hspeed⟩

/-- The row of the last custom patch is changed alike. -/
theorem relast (h : Alike job v w) (last : Option Nat) :
    Alike job { v with lastPatchRow := last } { w with lastPatchRow := last } := by
  obtain ⟨log, hspeed⟩ := h
  exact ⟨log, hspeed⟩

theorem rerow (h : Alike job v w) (row : List Instruction) :
    Alike job { v with row } { w with row } := by
  obtain ⟨log, hspeed⟩ := h
  exact ⟨log, hspeed⟩

/-- The tables are changed alike. -/
theorem retabled (h : Alike job v w) (tables : Tables) (log : Log) :
    Alike job { v with tables } { w with tables := { tables with log } } := by
  obtain ⟨-, hspeed⟩ := h
  exact ⟨log, hspeed⟩

theorem withSome {α : Type} (h : Alike job v w) (value : Option α) {step : Voice → α → Voice}
    (hstep : ∀ v w a, Alike job v w → Alike job (step v a) (step w a)) :
    Alike job (v.withSome value step) (w.withSome value step) := by
  cases value with
  | none => exact h
  | some a => exact hstep v w a h

/-! ## Tempo -/

theorem wantTempo (h : Alike job v w) (row : Row) {speed speed' : Option UInt8}
    (hspeed : job.project.tempoMode = .speed → speed' = speed) :
    Alike job (v.wantTempo job row speed) (w.wantTempo job row speed') := by
  obtain ⟨log, told, rfl⟩ := h.eq_relogged
  unfold Voice.wantTempo
  cases hmode : job.project.tempoMode with
  | speed =>
    obtain rfl := hspeed hmode
    simp only
    split
    · exact (h.logging _ _).rewanted _
    · exact h
  | groove =>
    refine logging ?_ _ _
    split
    · exact (h.retabled (v.tables.groove _).2 _).rewanted _
    · exact h

theorem syncTempo (h : Alike job v w) : Alike job (v.syncTempo job) (w.syncTempo job) := by
  have hspeed := h.speed
  obtain ⟨log, told, rfl⟩ := h.eq_relogged
  unfold Voice.syncTempo
  cases hmode : job.project.tempoMode with
  | speed =>
    obtain rfl : told = v.told.speed := hspeed hmode
    exact ite (fun _ => h) fun _ => ite (fun _ => (h.issue _ _).retold rfl fun _ => rfl)
      fun _ => h.logging _ _
  | groove =>
    exact ite (fun _ => h) fun _ => ite (fun _ => (h.issueAt _ _).retold rfl h.speed)
      fun _ => h.logging _ _

/-! ## Attributes -/

theorem want (h : Alike job v w) (note : Note) : Alike job (v.want job note) (w.want job note) := by
  have hvolume : ∀ v w a, Alike job v w → Alike job (v.wantVolume job a) (w.wantVolume job a) := by
    intro v w a h
    obtain ⟨log, told, rfl⟩ := h.eq_relogged
    exact ite (fun _ => (h.logging _ _).rewanted _) fun _ => h.logging _ _
  have hpitch : ∀ v w a, Alike job v w →
      Alike job (v.wantFinePitch job a) (w.wantFinePitch job a) := by
    intro v w a h
    obtain ⟨log, told, rfl⟩ := h.eq_relogged
    exact ite (fun _ => h.rewanted _) fun _ => h.logging _ _
  have hvibrato : ∀ v w a, Alike job v w →
      Alike job (v.wantVibrato job a) (w.wantVibrato job a) := by
    intro v w a h
    obtain ⟨log, told, rfl⟩ := h.eq_relogged
    exact ite (fun _ => h.rewanted _) fun _ => h.logging _ _
  have hduty : ∀ v w a, Alike job v w → Alike job (v.wantDuty job a) (w.wantDuty job a) := by
    intro v w a h
    obtain ⟨log, told, rfl⟩ := h.eq_relogged
    exact ite (fun _ => (h.logging _ _).rewanted _) fun _ => h.logging _ _
  have hspeed : ∀ v w a, Alike job v w → Alike job (v.wantFdsModSpeed a) (w.wantFdsModSpeed a) := by
    intro v w a h
    obtain ⟨log, told, rfl⟩ := h.eq_relogged
    exact (h.logging _ _).rewanted _
  have hdepth : ∀ v w a, Alike job v w → Alike job (v.wantFdsModDepth a) (w.wantFdsModDepth a) := by
    intro v w a h
    obtain ⟨log, told, rfl⟩ := h.eq_relogged
    exact (h.logging _ _).rewanted _
  have hfour := (((h.withSome note.volume hvolume).withSome note.finePitch hpitch).withSome
    note.vibrato hvibrato).withSome note.duty hduty
  exact ite (fun _ => ite (fun _ => (hfour.withSome note.fdsModSpeed hspeed).withSome
    note.fdsModDepth hdepth) fun _ => hfour.logging _ _) fun _ => hfour

/-! ## What the driver does not have yet -/

theorem syncVolume (h : Alike job v w) : Alike job (v.syncVolume job) (w.syncVolume job) := by
  obtain ⟨log, told, rfl⟩ := h.eq_relogged
  exact ite (fun _ => h) fun _ => ite (fun _ => (h.issue _ _).retold rfl h.speed)
    fun _ => h.logging _ _

theorem syncFinePitch (h : Alike job v w) :
    Alike job (v.syncFinePitch job) (w.syncFinePitch job) := by
  obtain ⟨log, told, rfl⟩ := h.eq_relogged
  exact ite (fun _ => h) fun _ => ite (fun _ => (h.issue _ _).retold rfl h.speed)
    fun _ => h.logging _ _

theorem syncVibrato (h : Alike job v w) :
    Yields (Alike job) (v.syncVibrato job) (w.syncVibrato job) := by
  obtain ⟨log, told, rfl⟩ := h.eq_relogged
  refine .ite (fun _ => .ok h) fun _ => .ite (fun _ => ?_) fun _ => .ok (h.logging _ _)
  have hwanted : (v.relogged log told).wanted.vibrato = v.wanted.vibrato := rfl
  simp only [hwanted]
  cases v.wanted.vibrato with
  | none => exact .ok (((h.issueAt _ _).issue _ _).retold rfl h.speed)
  | some setting =>
    refine (v.tables.vibrato_log log setting).bind ?_
    rintro ⟨index, tables⟩ _ ⟨log', rfl⟩
    exact .ok (((h.retabled tables log').issueAt _ _).retold rfl h.speed)

theorem syncDuty (h : Alike job v w) : Alike job (v.syncDuty job) (w.syncDuty job) := by
  obtain ⟨log, told, rfl⟩ := h.eq_relogged
  refine withSome h v.wanted.duty fun v w duty h => ?_
  obtain ⟨log, told, rfl⟩ := h.eq_relogged
  exact ite (fun _ => h) fun _ => ite (fun _ => (h.issue _ _).retold rfl h.speed)
    fun _ => h.logging _ _

theorem syncFdsModSpeed (h : Alike job v w) :
    Alike job (v.syncFdsModSpeed job) (w.syncFdsModSpeed job) := by
  obtain ⟨log, told, rfl⟩ := h.eq_relogged
  refine withSome h v.wanted.fdsModSpeed fun v w speed h => ?_
  obtain ⟨log, told, rfl⟩ := h.eq_relogged
  exact ite (fun _ => h) fun _ => ite (fun _ => (h.issue _ _).retold rfl h.speed)
    fun _ => h.logging _ _

theorem syncFdsModDepth (h : Alike job v w) :
    Alike job (v.syncFdsModDepth job) (w.syncFdsModDepth job) := by
  obtain ⟨log, told, rfl⟩ := h.eq_relogged
  refine withSome h v.wanted.fdsModDepth fun v w depth h => ?_
  obtain ⟨log, told, rfl⟩ := h.eq_relogged
  exact ite (fun _ => h) fun _ => ite (fun _ => (h.issue _ _).retold rfl h.speed)
    fun _ => h.logging _ _

theorem syncContinuous (h : Alike job v w) :
    Yields (Alike job) (v.syncContinuous job) (w.syncContinuous job) :=
  h.syncVolume.syncFinePitch.syncVibrato.bind fun _ _ h =>
    .ok h.syncDuty.syncFdsModSpeed.syncFdsModDepth

theorem syncInstrument (h : Alike job v w) (note : Note) (row : Nat) :
    Yields (Alike job) (v.syncInstrument job note row) (w.syncInstrument job note row) := by
  obtain ⟨log, told, rfl⟩ := h.eq_relogged
  refine .ite (fun _ => .ok h) fun _ => ?_
  have hwanted : (v.relogged log told).wanted.instrument = v.wanted.instrument := rfl
  simp only [hwanted]
  cases (note.instrument <|> v.wanted.instrument) with
  | none => exact .ok (h.rewanted _)
  | some index =>
    simp only
    cases job.project.instruments[index]? with
    | none => exact .error _ _
    | some instrument =>
      refine .ite (fun _ => .error _ _) fun _ => ?_
      cases job.slots.slot index with
      | none => exact .error _ _
      | some slot =>
        have hset : ∀ last, Alike job
            { v with wanted := { v.wanted with instrument := some index }, lastPatchRow := last }
            { v.relogged log told with
              wanted := { (v.relogged log told).wanted with instrument := some index }
              lastPatchRow := last } :=
          fun last => (h.relast last).rewanted _
        cases instrument.kind.isVrc7Custom
        · exact .ite (fun _ => .ok (((hset _).emit _).retold rfl h.speed)) fun _ => .ok (hset _)
        · exact .ite (fun _ => .ok (((hset _).emit _).retold rfl h.speed)) fun _ => .ok (hset _)

theorem syncArpeggio (h : Alike job v w) (note : Note) :
    Yields (Alike job) (v.syncArpeggio job note) (w.syncArpeggio job note) := by
  obtain ⟨log, told, rfl⟩ := h.eq_relogged
  unfold Voice.syncArpeggio
  cases note.arpeggio with
  | none =>
    exact .ite (fun _ => .ok h) fun _ => .ite (fun _ => .ok h) fun _ =>
      .ok (((h.issueAt _ _).issue _ _).retold rfl h.speed)
  | some index =>
    simp only
    cases job.arpeggios[index]? with
    | none => exact .error _ _
    | some curve =>
      exact .ite (fun _ => .ok (h.logging _ _)) fun _ => .ite (fun _ => .ok (h.logging _ _))
        fun _ => .ite (fun _ => .ok ((h.issue _ _).retold rfl h.speed))
          fun _ => .ok ((h.issueAt _ _).retold rfl h.speed)

theorem delays (h : Alike job v w) (note : Note) :
    Alike job (v.delays job note) (w.delays job note) :=
  (h.withSome note.noteDelay fun _ _ delay h => h.issue .noteDelay [delay]).withSome note.cutDelay
    fun _ _ delay h => h.issue .cutDelay [delay]

/-! ## Notes -/

theorem plainNote (h : Alike job v w) (value : UInt8) :
    Alike job (v.plainNote job value) (w.plainNote job value) := by
  unfold Voice.plainNote
  split
  · exact h.emit _
  · exact h.issue _ _

theorem pitchedNote (h : Alike job v w) (row : Row) (rest : List Row) (note : Note)
    (value : UInt8) :
    Alike job (v.pitchedNote job row rest note value) (w.pitchedNote job row rest note value) := by
  obtain ⟨log, told, rfl⟩ := h.eq_relogged
  unfold Voice.pitchedNote
  cases note.slideTo with
  | none => exact (h.logging _ _).plainNote _
  | some target =>
    -- both values are clamped before anything is sent
    have hclamped := fun a b c d => (h.logging a b).logging c d
    exact ite (fun _ => ((hclamped _ _ _ _).logging _ _).plainNote _) fun _ => ite
      (fun _ => ((hclamped _ _ _ _).logging _ _).plainNote _) fun _ => ite
      (fun _ => (hclamped _ _ _ _).plainNote _) fun _ => (hclamped _ _ _ _).issue .slide _

theorem deltaCounter (h : Alike job v w) (value : UInt8) :
    Alike job (v.deltaCounter job value) (w.deltaCounter job value) := by
  obtain ⟨log, told, rfl⟩ := h.eq_relogged
  exact ite (fun _ => h.logging _ _) fun _ => ite (fun _ => (h.logging _ _).rerow _)
    fun _ => (h.logging _ _).logging _ _

theorem sampleNote (h : Alike job v w) (value : UInt8) :
    Yields (fun x y => Alike job x.1 y.1 ∧ x.2 = y.2) (v.sampleNote job value)
      (w.sampleNote job value) := by
  unfold Voice.sampleNote
  split
  · exact .ok ⟨h.logging _ _, rfl⟩
  · split
    · exact .error _ _
    · exact .ite (fun _ => .error _ _) fun _ => .ite (fun _ => .ok ⟨h.logging _ _, rfl⟩)
        fun _ => .ok ⟨h.emit _, rfl⟩

/-! ## Rows -/

theorem attempt {ε α β : Type} {R : α → β → Prop} {fail fail' : ε → Error} {x : Except ε α}
    {y : Except ε β} (h : Yields R x y) : Yields R (v.attempt fail x) (w.attempt fail' y) := by
  intro a ha
  obtain ⟨b, rfl, hab⟩ := h a (Voice.attempt_ok ha)
  exact ⟨b, rfl, hab⟩

theorem playValue (h : Alike job v w) (index : Nat) (row : Row) (rest : List Row) (note : Note) :
    Yields (fun x y => Alike job x.1 y.1 ∧ x.2 = y.2) (v.playValue job index row rest note)
      (w.playValue job index row rest note) := by
  unfold Voice.playValue
  split
  · refine .ite (fun _ => ?_) fun _ => ?_
    · exact (attempt h.syncContinuous).bind fun _ _ h => attempt ((h.delays note).sampleNote _)
    · refine (attempt (h.syncInstrument note index)).bind fun _ _ h => ?_
      refine (attempt (h.syncArpeggio note)).bind fun _ _ h => ?_
      refine (attempt h.syncContinuous).bind fun _ _ h => .ok ⟨?_, rfl⟩
      exact (h.delays note).pitchedNote row rest note _
  · exact (attempt h.syncContinuous).bind fun _ _ h => .ok ⟨(h.delays note).emit _, rfl⟩
  · exact (attempt h.syncContinuous).bind fun _ _ h =>
      .ite (fun _ => .ok ⟨(h.delays note).issue _ _, rfl⟩) fun _ => .ok ⟨h.logging _ _, rfl⟩
  · exact (attempt h.syncContinuous).bind fun _ _ h => .ok ⟨h, rfl⟩

/-- **A row does the same to states that are alike.** -/
theorem processRow (h : Alike job v w) (index : Nat) (row : Row) {speed speed' : Option UInt8}
    (hspeed : job.project.tempoMode = .speed → speed' = speed) (rest : List Row) :
    Yields (fun x y => Alike job x.1 y.1 ∧ x.2 = y.2) (v.processRow job index row speed rest)
      (w.processRow job index row speed' rest) := by
  have htempo : Alike job
      (if job.carriesTempo then (v.wantTempo job row speed).syncTempo job
        else v.wantTempo job row speed)
      (if job.carriesTempo then (w.wantTempo job row speed').syncTempo job
        else w.wantTempo job row speed') :=
    ite (fun _ => (h.wantTempo row hspeed).syncTempo) fun _ => h.wantTempo row hspeed
  unfold Voice.processRow
  cases row.note with
  | none => exact .ok ⟨htempo, rfl⟩
  | some note =>
    refine ((htempo.want note).playValue index row rest note).bind fun x y hxy => .ok ⟨?_, hxy.2⟩
    exact hxy.1.withSome note.deltaCounter fun _ _ value h => h.deltaCounter value

end Alike

end Stream

end Chiptune
