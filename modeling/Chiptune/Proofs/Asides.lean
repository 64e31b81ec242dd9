import Chiptune.Proofs.RowInstructions

/-!
# Steps of a row that change neither instrument nor tempo

Most steps of a row have nothing to do with the instrument of the channel and with the tempo of the
song (`Voice.Aside`): they leave both alone, and the instructions that they add to the row are
none that load an instrument, set the tempo or slide.

* `Voice.aside_want`, `Voice.aside_syncContinuous`, `Voice.aside_deltaCounter`: the steps of a cell.
-/

set_option autoImplicit false

namespace Chiptune

/-- Whether an operation has nothing to do with the tempo and stays in the stream. -/
def Op.isAside : Op → Bool
  | slide | speed | groove | jump | halt | reference => false
  | _ => true

/-- Whether an instruction has nothing to do with instruments and tempo. -/
def Instruction.isAside : Instruction → Bool
  | note .. => true
  | op o .. => o.isAside
  | _ => false

namespace Stream

variable {job : Job}

namespace Voice

/-- What a voice knows of instrument and tempo. -/
structure Course where
  instrument : Option Nat × Option Nat
  lastPatchRow : Option Nat
  speed : Option UInt8 × UInt8
  groove : Option Nat × Nat

/-- What a voice knows of instrument and tempo: what was told and what is wanted. -/
def course (v : Voice) : Course where
  instrument := (v.told.instrument, v.wanted.instrument)
  lastPatchRow := v.lastPatchRow
  speed := (v.told.speed, v.wanted.speed)
  groove := (v.told.groove, v.wanted.groove)

/-- A step that has nothing to do with instrument and tempo. -/
structure Aside (v v' : Voice) : Prop where
  course : v'.course = v.course
  row : ∀ {α : Type} (f : Instruction → List α), (∀ i, i.isAside = true → f i = []) →
    v'.row.flatMap f = v.row.flatMap f

theorem Aside.refl (v : Voice) : v.Aside v := ⟨rfl, fun _ _ => rfl⟩

theorem Aside.trans {v v' v'' : Voice} (h : v.Aside v') (h' : v'.Aside v'') : v.Aside v'' :=
  ⟨h'.course.trans h.course, fun f hf => (h'.row f hf).trans (h.row f hf)⟩

theorem Aside.withSome {α : Type} {v : Voice} {step : Voice → α → Voice}
    (h : ∀ (v : Voice) a, v.Aside (step v a)) (value : Option α) :
    v.Aside (v.withSome value step) := by
  cases value with
  | none => exact .refl v
  | some a => exact h v a

/-- A step that leaves the row alone. -/
theorem Aside.of_eq {v v' : Voice} (hc : v'.course = v.course) (hr : v'.row = v.row) : v.Aside v' :=
  ⟨hc, fun _ _ => by rw [hr]⟩

/-- A step followed by a change of what else the driver was told. -/
theorem Aside.telling {v v' : Voice} (h : v.Aside v') {told : Told}
    (hi : told.instrument = v.told.instrument) (hs : told.speed = v.told.speed)
    (hg : told.groove = v.told.groove) : v.Aside { v' with told } := by
  refine ⟨?_, h.row⟩
  have hcourse := h.course
  simp only [Voice.course, Course.mk.injEq, Prod.mk.injEq] at hcourse ⊢
  exact ⟨⟨hi, hcourse.1.2⟩, hcourse.2.1, ⟨hs, hcourse.2.2.1.2⟩, ⟨hg, hcourse.2.2.2.2⟩⟩

theorem aside_logging (v : Voice) (change : Log → Log) : v.Aside (v.logging change) :=
  .of_eq rfl rfl

theorem aside_clamped (v : Voice) (value low high : UInt8) (what : String) :
    v.Aside (v.clamped value low high what).2 :=
  aside_logging v _

theorem aside_unsupported (v : Voice) (what : String) : v.Aside (v.unsupported job what) :=
  aside_logging v _

theorem aside_lacking (v : Voice) (op : Op) : v.Aside (v.lacking job op) := aside_logging v _

theorem aside_emit (v : Voice) {i : Instruction} (hi : i.isAside = true) : v.Aside (v.emit i) :=
  ⟨rfl, fun f hf => by simp [emit, hf i hi]⟩

theorem aside_issue (v : Voice) {op : Op} (ho : op.isAside = true) (bytes : List UInt8) :
    v.Aside (v.issue job op bytes) := by
  unfold issue
  split
  · exact aside_emit v ho
  · exact aside_logging v _

theorem aside_issueAt (v : Voice) {op : Op} (ho : op.isAside = true) (label : Label) :
    v.Aside (v.issueAt job op label) := by
  unfold issueAt
  split
  · have htables : v.Aside { v with tables := (v.tables.symbol (label.text job.stem)).2 } :=
      .of_eq rfl rfl
    exact htables.trans (aside_emit _ ho)
  · exact aside_logging v _

/-! ## Attributes -/

theorem aside_want (v : Voice) (note : Note) : v.Aside (v.want job note) := by
  have hvolume : ∀ (v : Voice) a, v.Aside (v.wantVolume job a) := by
    intro v a
    unfold wantVolume
    split <;> exact .of_eq rfl rfl
  have hpitch : ∀ (v : Voice) a, v.Aside (v.wantFinePitch job a) := by
    intro v a
    unfold wantFinePitch
    split <;> exact .of_eq rfl rfl
  have hvibrato : ∀ (v : Voice) a, v.Aside (v.wantVibrato job a) := by
    intro v a
    unfold wantVibrato
    split <;> exact .of_eq rfl rfl
  have hduty : ∀ (v : Voice) a, v.Aside (v.wantDuty job a) := by
    intro v a
    unfold wantDuty
    split <;> exact .of_eq rfl rfl
  have hspeed : ∀ (v : Voice) a, v.Aside (v.wantFdsModSpeed a) := fun _ _ => .of_eq rfl rfl
  have hdepth : ∀ (v : Voice) a, v.Aside (v.wantFdsModDepth a) := fun _ _ => .of_eq rfl rfl
  have hfour := (((Aside.withSome (v := v) hvolume note.volume).trans
    (.withSome hpitch note.finePitch)).trans (.withSome hvibrato note.vibrato)).trans
    (.withSome hduty note.duty)
  unfold want
  simp only
  split
  · split
    · exact hfour.trans ((Aside.withSome hspeed _).trans (Aside.withSome hdepth _))
    · exact hfour.trans (aside_logging _ _)
  · exact hfour

theorem aside_syncVolume (v : Voice) : v.Aside (v.syncVolume job) := by
  unfold syncVolume
  simp only
  split
  · exact .refl v
  split
  · exact (aside_issue v rfl _).telling rfl rfl rfl
  · exact aside_logging v _

theorem aside_syncFinePitch (v : Voice) : v.Aside (v.syncFinePitch job) := by
  unfold syncFinePitch
  simp only
  split
  · exact .refl v
  split
  · exact (aside_issue v rfl _).telling rfl rfl rfl
  · exact aside_logging v _

theorem aside_syncVibrato {v v' : Voice} (h : v.syncVibrato job = .ok v') : v.Aside v' := by
  cases syncVibrato_ok h with
  | known => exact .refl v
  | @starts setting index tables =>
    have htables : v.Aside { v with tables } := .of_eq rfl rfl
    exact (htables.trans (aside_issueAt _ rfl _)).telling rfl rfl rfl
  | ends => exact ((aside_issueAt v rfl _).trans (aside_issue _ rfl _)).telling rfl rfl rfl
  | lacking => exact aside_logging v _

theorem aside_syncDuty (v : Voice) : v.Aside (v.syncDuty job) := by
  refine Aside.withSome (fun v duty => ?_) _
  split
  · exact .refl v
  split
  · exact (aside_issue v rfl _).telling rfl rfl rfl
  · exact aside_logging v _

theorem aside_syncFdsModSpeed (v : Voice) : v.Aside (v.syncFdsModSpeed job) := by
  refine Aside.withSome (fun v speed => ?_) _
  split
  · exact .refl v
  split
  · exact (aside_issue v rfl _).telling rfl rfl rfl
  · exact aside_logging v _

theorem aside_syncFdsModDepth (v : Voice) : v.Aside (v.syncFdsModDepth job) := by
  refine Aside.withSome (fun v depth => ?_) _
  split
  · exact .refl v
  split
  · exact (aside_issue v rfl _).telling rfl rfl rfl
  · exact aside_logging v _

theorem aside_syncContinuous {v v' : Voice} (h : v.syncContinuous job = .ok v') : v.Aside v' := by
  obtain ⟨u, hu, h⟩ := bind_ok h
  cases h
  exact ((((aside_syncVolume v).trans (aside_syncFinePitch _)).trans
    (aside_syncVibrato hu)).trans (aside_syncDuty u)).trans
    ((aside_syncFdsModSpeed _).trans (aside_syncFdsModDepth _))

/-! ## Notes -/

theorem aside_syncArpeggio {v v' : Voice} {note : Note} (h : v.syncArpeggio job note = .ok v') :
    v.Aside v' := by
  cases syncArpeggio_ok h with
  | unsupported => exact aside_logging v _
  | lacking => exact aside_logging v _
  | again => exact (aside_issue v rfl _).telling rfl rfl rfl
  | starts => exact (aside_issueAt v rfl _).telling rfl rfl rfl
  | unchanged => exact .refl v
  | ends => exact ((aside_issueAt v rfl _).trans (aside_issue _ rfl _)).telling rfl rfl rfl

theorem aside_delays (v : Voice) (note : Note) : v.Aside (v.delays job note) := by
  unfold delays
  refine Aside.trans (Aside.withSome (fun v delay => ?_) _) (Aside.withSome (fun v delay => ?_) _)
  · exact aside_issue v rfl _
  · exact aside_issue v rfl _

theorem aside_plainNote (v : Voice) (value : UInt8) : v.Aside (v.plainNote job value) := by
  unfold plainNote
  split
  · exact aside_emit v rfl
  · exact aside_issue v rfl _

theorem aside_sampleNote {v v' : Voice} {value : UInt8} {advances : Bool}
    (h : v.sampleNote job value = .ok (v', advances)) : v.Aside v' := by
  cases sampleNote_ok h with
  | ignored _ change => exact aside_logging v change
  | plays => exact aside_emit v rfl

/-- It does not matter where in a row an instruction stands that sends nothing. -/
theorem flatMap_insertBeforeNote {α : Type} {f : Instruction → List α} {i : Instruction}
    (hi : f i = []) (is : List Instruction) : (insertBeforeNote i is).flatMap f = is.flatMap f := by
  induction is with
  | nil => simp [insertBeforeNote, hi]
  | cons first rest ih =>
    unfold insertBeforeNote
    split
    · simp [hi]
    · simp [ih]

theorem aside_deltaCounter (v : Voice) (value : UInt8) : v.Aside (v.deltaCounter job value) := by
  unfold deltaCounter
  split
  · exact aside_logging v _
  simp only
  split
  · exact ⟨rfl, fun f hf => flatMap_insertBeforeNote (hf _ rfl) v.row⟩
  · exact (aside_logging v _).trans (aside_logging _ _)

end Voice

end Stream

end Chiptune
