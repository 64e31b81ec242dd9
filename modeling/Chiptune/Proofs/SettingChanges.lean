import Chiptune.Proofs.Holdings
import Chiptune.Proofs.LabelNames
import Chiptune.Proofs.Settings
import Chiptune.Proofs.Tempo

/-!
# Settings are announced when they change

A stream announces a `Setting` with one kind of instruction. Whoever reads the stream knows of each
setting the instruction that announced it last (`Instruction.heard`): nothing behind a label, where
the driver also arrives from the end of the song, and nothing of duty and modulation behind an
instrument, which brings its own. A stream is `Fresh` if it never says what its reader knows.

What a voice has told the driver stands for the same knowledge (`Told.announced`), and every step of
a row keeps the two together (`Voice.Updates`).

* `Fresh.ne`: **a fresh stream announces no setting twice with the same operand**.
* `Voice.updates_processRow`: **a row announces what changes, and nothing else**.
-/

set_option autoImplicit false

namespace Chiptune

/-- What instructions announce when it changes. -/
inductive Setting
  | instrument
  | volume
  | finePitch
  | duty
  | fdsModSpeed
  | fdsModDepth
  | speed
  | groove
  deriving DecidableEq

namespace Instruction

/-- Setting that an instruction announces. -/
def sets : Instruction → Option Setting
  | instrument _ => some .instrument
  | op .volume .. => some .volume
  | op .finePitch .. => some .finePitch
  | op .duty .. => some .duty
  | op .fdsModSpeed .. => some .fdsModSpeed
  | op .fdsModDepth .. => some .fdsModDepth
  | op .speed .. => some .speed
  | op .groove .. => some .groove
  | _ => none

/-- Whether a setting is unknown behind an instruction. -/
def loses (s : Setting) : Instruction → Bool
  | label _ => true
  | instrument _ => s == .duty || s == .fdsModSpeed || s == .fdsModDepth
  | _ => false

/-- Whether an instruction makes a difference to what is known of a setting. -/
def concerns (s : Setting) (i : Instruction) : Bool := i.loses s || i.sets == some s

/-- What is known of a setting behind an instruction: the one that announced it last. -/
def heard (s : Setting) (known : Option Instruction) (i : Instruction) : Option Instruction :=
  if i.loses s then none else if i.sets = some s then some i else known

variable {s : Setting} {i : Instruction}

theorem heard_of_not_concerns (known : Option Instruction) (h : i.concerns s = false) :
    i.heard s known = known := by
  simp only [concerns, Bool.or_eq_false_iff, beq_eq_false_iff_ne] at h
  rw [heard, h.1, if_neg Bool.false_ne_true, if_neg h.2]

/-- No instruction loses what it announces. -/
theorem heard_of_sets (known : Option Instruction) (h : i.sets = some s) :
    i.heard s known = some i := by
  have hkeeps : i.loses s = false := by
    cases i with
    | instrument slot =>
      cases h
      rfl
    | label id => cases h
    | _ => rfl
  rw [heard, hkeeps, if_neg Bool.false_ne_true, if_pos h]

end Instruction

/-! ## Fresh streams -/

/-- A stream never announces what is already known of a setting. -/
def Fresh (s : Setting) : Option Instruction → List Instruction → Prop
  | _, [] => True
  | known, i :: rest => (i.sets = some s → known ≠ some i) ∧ Fresh s (i.heard s known) rest

section

variable {s : Setting} {known : Option Instruction} {is js : List Instruction}

theorem fresh_append : Fresh s known (is ++ js) ↔
    Fresh s known is ∧ Fresh s (is.foldl (Instruction.heard s) known) js := by
  induction is generalizing known with
  | nil => simp [Fresh]
  | cons i is ih => rw [List.cons_append, Fresh, Fresh, ih, and_assoc, List.foldl_cons]

/-- Instructions that have nothing to do with a setting make no difference to it. -/
theorem foldl_heard_of_not_concerns (h : ∀ i ∈ is, i.concerns s = false) :
    is.foldl (Instruction.heard s) known = known := by
  induction is with
  | nil => rfl
  | cons i is ih =>
    rw [List.foldl_cons, i.heard_of_not_concerns known (h i List.mem_cons_self)]
    apply ih
    exact fun j hj => h j (List.mem_cons_of_mem _ hj)

/-- A stream is as fresh as its instructions that have to do with the setting. -/
theorem fresh_filter : Fresh s known (is.filter (·.concerns s)) ↔ Fresh s known is := by
  induction is generalizing known with
  | nil => rfl
  | cons i is ih =>
    by_cases h : i.concerns s = true
    · rw [List.filter_cons_of_pos h, Fresh, Fresh, ih]
    · have hno : i.concerns s = false := by simpa using h
      have hsets : i.sets ≠ some s := by
        intro hi
        simp [Instruction.concerns, hi] at hno
      rw [List.filter_cons_of_neg h, ih, Fresh, i.heard_of_not_concerns known hno]
      simp [hsets]

theorem foldl_heard_filter :
    (is.filter (·.concerns s)).foldl (Instruction.heard s) known =
      is.foldl (Instruction.heard s) known := by
  induction is generalizing known with
  | nil => rfl
  | cons i is ih =>
    by_cases h : i.concerns s = true
    · rw [List.filter_cons_of_pos h, List.foldl_cons, ih, List.foldl_cons]
    · have hno : i.concerns s = false := by simpa using h
      rw [List.filter_cons_of_neg h, ih, List.foldl_cons, i.heard_of_not_concerns known hno]

/-- Whoever knows less hears nothing twice either. -/
theorem Fresh.forget (h : Fresh s known is) : Fresh s none is := by
  induction is with
  | nil => trivial
  | cons i is ih =>
    refine ⟨fun _ => Option.some_ne_none i |>.symm, ?_⟩
    by_cases hi : i.concerns s = true
    · have hsame : i.heard s none = i.heard s known := by
        simp only [Instruction.concerns, Bool.or_eq_true, beq_iff_eq] at hi
        unfold Instruction.heard
        rcases hi with hi | hi
        · rw [if_pos hi, if_pos hi]
        · rw [if_pos hi, if_pos hi]
      rw [hsame]
      exact h.2
    · have hno : i.concerns s = false := by simpa using hi
      have hrest := h.2
      rw [i.heard_of_not_concerns _ hno] at hrest ⊢
      exact ih hrest

/-- **A fresh stream announces no setting twice with the same operand**, unless the setting is lost
or announced in between. -/
theorem Fresh.ne {before between after : List Instruction} {i j : Instruction}
    (h : Fresh s known (before ++ i :: (between ++ j :: after))) (hi : i.sets = some s)
    (hj : j.sets = some s) (hbetween : ∀ k ∈ between, k.concerns s = false) : i ≠ j := by
  have hbehind := (fresh_append.1 h).2.2
  rw [i.heard_of_sets _ hi] at hbehind
  have hlast := (fresh_append.1 hbehind).2.1 hj
  rw [foldl_heard_of_not_concerns hbetween] at hlast
  exact fun hij => hlast (congrArg some hij)

/-- **The first announcement of a fresh stream says something new.** -/
theorem Fresh.ne_first {before after : List Instruction} {i : Instruction}
    (h : Fresh s known (before ++ i :: after)) (hi : i.sets = some s)
    (hbefore : ∀ k ∈ before, k.concerns s = false) : known ≠ some i := by
  have hfirst := (fresh_append.1 h).2.1 hi
  rwa [foldl_heard_of_not_concerns hbefore] at hfirst

end

namespace Stream

variable {job : Job} {t : Tables} {s : Setting}

/-! ## What a voice has announced -/

/-- The project has the instrument of an index, and the channel can play it. -/
def Job.fits (job : Job) (i : Nat) : Bool :=
  job.project.instruments[i]?.any (·.kind.fits job.channel)

theorem fits_iff {i : Nat} : job.fits i = true ↔
    ∃ instrument, job.project.instruments[i]? = some instrument ∧
      instrument.kind.fits job.channel = true := by
  unfold Job.fits
  cases job.project.instruments[i]? <;> simp

/-- Two instruments of the channel have two slots, and no channel can replace their patches. -/
structure Job.Apart (job : Job) : Prop where
  ownPatch : job.channel.isVrc7 = false
  slots : ∀ i j slot, job.fits i = true → job.fits j = true → job.slots.slot i = some slot →
    job.slots.slot j = some slot → i = j

/-- Instruction by which the driver knows a setting, if it was told. -/
def Told.announced (job : Job) (t : Tables) (told : Told) : Setting → Option Instruction
  | .instrument =>
    ((told.instrument.filter job.fits).bind job.slots.slot).map .instrument
  | .volume => told.volume.map fun x => .op .volume [x] []
  | .finePitch => told.finePitch.map fun x => .op .finePitch [x.toUInt8] []
  | .duty => told.duty.map fun x => .op .duty [x] []
  | .fdsModSpeed =>
    told.fdsModSpeed.map fun (x : UInt16) =>
      .op .fdsModSpeed [x.toUInt8, (x >>> 8).toUInt8] []
  | .fdsModDepth => told.fdsModDepth.map fun x => .op .fdsModDepth [x] []
  | .speed => told.speed.map fun x => .op .speed [x] []
  | .groove =>
    (told.groove.bind fun x => t.number? ((Label.groove x).text job.stem)).map fun id =>
      .op .groove [] [.symbol id]

namespace Voice

/-- Instructions of the current row that have to do with a setting. -/
def concerning (v : Voice) (s : Setting) : List Instruction := v.row.filter (·.concerns s)

/-- A step that announces a setting only where it changes, and knows what it has announced. -/
def Updates (job : Job) (t : Tables) (s : Setting) (v v' : Voice) : Prop :=
  ∃ is, v'.concerning s = v.concerning s ++ is ∧ Fresh s (v.told.announced job t s) is ∧
    v'.told.announced job t s = is.foldl (Instruction.heard s) (v.told.announced job t s)

theorem Updates.of_eq {v v' : Voice}
    (ht : v'.told.announced job t s = v.told.announced job t s)
    (hr : v'.concerning s = v.concerning s) : v.Updates job t s v' :=
  ⟨[], by rw [hr, List.append_nil], trivial, ht⟩

theorem Updates.refl (v : Voice) : v.Updates job t s v := .of_eq rfl rfl

theorem Updates.trans {v v' v'' : Voice} (h : v.Updates job t s v')
    (h' : v'.Updates job t s v'') : v.Updates job t s v'' := by
  obtain ⟨is, hr, hfresh, ht⟩ := h
  obtain ⟨js, hr', hfresh', ht'⟩ := h'
  rw [ht] at hfresh' ht'
  refine ⟨is ++ js, by rw [hr', hr, List.append_assoc], fresh_append.2 ⟨hfresh, hfresh'⟩, ?_⟩
  rw [ht', List.foldl_append]

theorem Updates.withSome {α : Type} {v : Voice} {step : Voice → α → Voice}
    (h : ∀ (v : Voice) a, v.Updates job t s (step v a)) (value : Option α) :
    v.Updates job t s (v.withSome value step) := by
  cases value with
  | none => exact .refl v
  | some a => exact h v a

/-- **Sending an instruction**: it says something new, and what was told is what it says. -/
theorem updates_tell (v : Voice) (i : Instruction) (told : Told)
    (hnew : i.sets = some s → v.told.announced job t s ≠ some i)
    (htold : told.announced job t s = i.heard s (v.told.announced job t s)) :
    v.Updates job t s { v.emit i with told } := by
  by_cases hi : i.concerns s = true
  · refine ⟨[i], ?_, ⟨hnew, trivial⟩, htold⟩
    simp [concerning, emit, hi]
  · have hno : i.concerns s = false := by simpa using hi
    refine .of_eq (htold.trans (i.heard_of_not_concerns _ hno)) ?_
    simp [concerning, emit, hno]

/-! ## Steps that have nothing to do with a setting -/

/-- A step that sends nothing that has to do with a setting. -/
structure Spares (s : Setting) (v v' : Voice) : Prop where
  told : v'.told = v.told
  row : v'.concerning s = v.concerning s

theorem Spares.trans {v v' v'' : Voice} (h : v.Spares s v') (h' : v'.Spares s v'') :
    v.Spares s v'' :=
  ⟨h'.told.trans h.told, h'.row.trans h.row⟩

theorem Spares.withSome {α : Type} {v : Voice} {step : Voice → α → Voice}
    (h : ∀ (v : Voice) a, v.Spares s (step v a)) (value : Option α) :
    v.Spares s (v.withSome value step) := by
  cases value with
  | none => exact ⟨rfl, rfl⟩
  | some a => exact h v a

/-- A step followed by a change of what else the driver was told. -/
theorem Spares.telling {v v' : Voice} (h : v.Spares s v') {told : Told}
    (ht : told.announced job t s = v.told.announced job t s) :
    v.Updates job t s { v' with told } :=
  .of_eq ht h.row

theorem Spares.updates {v v' : Voice} (h : v.Spares s v') : v.Updates job t s v' :=
  h.telling (by rw [h.told])

theorem spares_logging (v : Voice) (change : Log → Log) : v.Spares s (v.logging change) :=
  ⟨rfl, rfl⟩

theorem spares_clamped (v : Voice) (value low high : UInt8) (what : String) :
    v.Spares s (v.clamped value low high what).2 :=
  spares_logging v _

theorem spares_emit (v : Voice) {i : Instruction} (hi : i.concerns s = false) :
    v.Spares s (v.emit i) :=
  ⟨rfl, by simp [concerning, emit, hi]⟩

theorem spares_issue (v : Voice) (op : Op) (bytes : List UInt8)
    (ho : (Instruction.op op bytes []).concerns s = false) :
    v.Spares s (v.issue job op bytes) := by
  unfold issue
  split
  · exact spares_emit v ho
  · exact spares_logging v _

theorem spares_issueAt (v : Voice) (op : Op) (label : Label)
    (ho : ∀ a, (Instruction.op op [] [a]).concerns s = false) :
    v.Spares s (v.issueAt job op label) := by
  unfold issueAt
  split
  · have htables : v.Spares s { v with tables := (v.tables.symbol (label.text job.stem)).2 } :=
      ⟨rfl, rfl⟩
    exact htables.trans (spares_emit _ (ho _))
  · exact spares_logging v _

theorem spares_wantTempo (v : Voice) (row : Row) (speed : Option UInt8) :
    v.Spares s (v.wantTempo job row speed) := by
  refine ⟨(paced_wantTempo v job row speed).2, ?_⟩
  unfold wantTempo concerning
  split
  · split <;> rfl
  · simp only
    split <;> rfl

theorem spares_want (v : Voice) (note : Note) : v.Spares s (v.want job note) := by
  obtain ⟨_, htakes, -⟩ := takes_want job v note
  exact ⟨htakes.told, by rw [concerning, htakes.row, concerning]⟩

theorem spares_delays (v : Voice) (note : Note) : v.Spares s (v.delays job note) := by
  unfold delays
  refine Spares.trans (.withSome (fun v delay => ?_) _) (.withSome (fun v delay => ?_) _)
  · exact spares_issue v .noteDelay [delay] (by cases s <;> rfl)
  · exact spares_issue v .cutDelay [delay] (by cases s <;> rfl)

theorem spares_plainNote (v : Voice) (value : UInt8) : v.Spares s (v.plainNote job value) := by
  unfold plainNote
  split
  · apply spares_emit
    cases s <;> rfl
  · apply spares_issue
    cases s <;> rfl

theorem spares_pitchedNote (v : Voice) (row : Row) (rest : List Row) (note : Note)
    (value : UInt8) : v.Spares s (v.pitchedNote job row rest note value) := by
  unfold pitchedNote
  simp only
  refine (spares_clamped v value noteMin noteMax "Note").trans ?_
  split
  · exact spares_plainNote _ _
  · rename_i target _
    refine (spares_clamped _ target noteMin noteMax "Slide target").trans ?_
    split
    · exact (spares_logging _ _).trans (spares_plainNote _ _)
    split
    · exact (spares_logging _ _).trans (spares_plainNote _ _)
    split
    · exact spares_plainNote _ _
    · exact spares_issue _ _ _ (by cases s <;> rfl)

theorem spares_sampleNote {v v' : Voice} {value : UInt8} {advances : Bool}
    (h : v.sampleNote job value = .ok (v', advances)) : v.Spares s v' := by
  cases sampleNote_ok h with
  | ignored _ change => exact spares_logging v change
  | plays => exact spares_emit v (by cases s <;> rfl)

/-- It does not matter where in a row an instruction stands that has to do with no setting. -/
theorem filter_insertBeforeNote {i : Instruction} (hi : i.concerns s = false)
    (is : List Instruction) :
    (insertBeforeNote i is).filter (·.concerns s) = is.filter (·.concerns s) := by
  induction is with
  | nil => simp [insertBeforeNote, hi]
  | cons first rest ih =>
    unfold insertBeforeNote
    split
    · simp [hi]
    · simp [List.filter_cons, ih]

theorem spares_deltaCounter (v : Voice) (value : UInt8) :
    v.Spares s (v.deltaCounter job value) := by
  unfold deltaCounter
  split
  · exact spares_logging v _
  simp only
  split
  · exact ⟨rfl, filter_insertBeforeNote (by cases s <;> rfl) v.row⟩
  · exact (spares_logging v _).trans (spares_logging _ _)

/-- **A setting is sent if the driver has another one**, and if the kernel has an instruction for
it. -/
theorem updates_change (v : Voice) {op : Op} {bytes : List UInt8} {told : Told} {same : Prop}
    [Decidable same]
    (hnew : ¬ same → (Instruction.op op bytes []).sets = some s →
      v.told.announced job t s ≠ some (.op op bytes []))
    (htold : told.announced job t s =
      (Instruction.op op bytes []).heard s (v.told.announced job t s)) :
    v.Updates job t s (if same then v
      else if job.kernel.supports op then { v.issue job op bytes with told }
      else v.lacking job op) := by
  split
  · exact .refl v
  split
  · rename_i hother hsupports
    rw [issue, if_pos hsupports]
    exact updates_tell v _ told (hnew hother) htold
  · exact (spares_logging v _).updates

/-! ## Tempo -/

/-- Two grooves have two labels, and the labels two numbers. -/
theorem groove_eq {g g' id : Nat} (h : t.number? ((Label.groove g).text job.stem) = some id)
    (h' : t.number? ((Label.groove g').text job.stem) = some id) : g = g' := by
  have hname := (Tables.name?_of_number? h).symm.trans (Tables.name?_of_number? h')
  have hlabel := Label.text_inj (a := .groove g) (b := .groove g') trivial trivial
    (Option.some.inj hname)
  exact Label.groove.inj hlabel

theorem updates_syncTempo (v : Voice) (ht : (v.syncTempo job).tables.Extends t) :
    v.Updates job t s (v.syncTempo job) := by
  revert ht
  unfold syncTempo
  split
  · intro _
    apply updates_change
    · rintro hnew ⟨⟩
      simpa [Told.announced] using hnew
    · cases s <;> rfl
  · simp only
    split
    · exact fun _ => .refl v
    split
    · rename_i hnew hsupports
      rw [issueAt, if_pos hsupports]
      intro ht
      have hid :=
        ht.number? (v.tables.number?_symbol ((Label.groove v.wanted.groove).text job.stem))
      apply updates_tell (v := { v with tables := _ })
      · rintro ⟨⟩ hknown
        simp only [Told.announced, Option.map_eq_some_iff, Option.bind_eq_some_iff] at hknown
        obtain ⟨id, ⟨groove, htold, hnumber⟩, hop⟩ := hknown
        have hsame : id = _ := Target.symbol.inj (by simpa using hop)
        rw [hsame] at hnumber
        rw [groove_eq hnumber hid] at htold
        exact hnew htold
      · cases s
        case groove =>
          simp only [Told.announced, Option.bind_some, hid]
          rfl
        all_goals rfl
    · exact fun _ => (spares_logging v _).updates

/-! ## Continuous settings -/

theorem updates_syncVolume (v : Voice) : v.Updates job t s (v.syncVolume job) := by
  unfold syncVolume
  apply updates_change
  · rintro hnew ⟨⟩
    simpa [Told.announced] using hnew
  · cases s <;> rfl

theorem finePitch_eq {x y : Int8} (h : x.toUInt8 = y.toUInt8) : x = y := by
  simpa using congrArg UInt8.toInt8 h

theorem updates_syncFinePitch (v : Voice) : v.Updates job t s (v.syncFinePitch job) := by
  unfold syncFinePitch
  apply updates_change
  · rintro hnew ⟨⟩ hknown
    simp only [Told.announced, Option.map_eq_some_iff] at hknown
    obtain ⟨told, htold, hop⟩ := hknown
    simp only [Instruction.op.injEq, List.cons.injEq, and_true, true_and] at hop
    rw [finePitch_eq hop] at htold
    exact hnew htold
  · cases s <;> rfl

theorem updates_syncVibrato {v v' : Voice} (h : v.syncVibrato job = .ok v') :
    v.Updates job t s v' := by
  cases syncVibrato_ok h with
  | known => exact .refl v
  | @starts setting index tables =>
    have htables : v.Spares s { v with tables } := ⟨rfl, rfl⟩
    apply Spares.telling
    · exact htables.trans (spares_issueAt _ .vibratoOverride _ fun _ => by cases s <;> rfl)
    · cases s <;> rfl
  | ends =>
    apply Spares.telling
    · exact (spares_issueAt v .vibratoOverride _ fun _ => by cases s <;> rfl).trans
        (spares_issue _ .clearPitchOverride [] (by cases s <;> rfl))
    · cases s <;> rfl
  | lacking => exact (spares_logging v _).updates

theorem updates_syncDuty (v : Voice) : v.Updates job t s (v.syncDuty job) := by
  refine Updates.withSome (fun v duty => ?_) _
  apply updates_change
  · rintro hnew ⟨⟩
    simpa [Told.announced] using hnew
  · cases s <;> rfl

/-- The two operand bytes of a modulation speed tell which one it is. -/
theorem fdsModSpeed_eq {x y : UInt16} (hlow : x.toUInt8 = y.toUInt8)
    (hhigh : (x >>> 8).toUInt8 = (y >>> 8).toUInt8) : x = y := by
  rw [← modSpeed_of_bytes x, hlow, hhigh, modSpeed_of_bytes]

theorem updates_syncFdsModSpeed (v : Voice) : v.Updates job t s (v.syncFdsModSpeed job) := by
  refine Updates.withSome (fun v speed => ?_) _
  apply updates_change
  · rintro hnew ⟨⟩ hknown
    simp only [Told.announced, Option.map_eq_some_iff] at hknown
    obtain ⟨told, htold, hop⟩ := hknown
    simp only [Instruction.op.injEq, List.cons.injEq, and_true, true_and] at hop
    rw [fdsModSpeed_eq hop.1 hop.2] at htold
    exact hnew htold
  · cases s <;> rfl

theorem updates_syncFdsModDepth (v : Voice) : v.Updates job t s (v.syncFdsModDepth job) := by
  refine Updates.withSome (fun v depth => ?_) _
  apply updates_change
  · rintro hnew ⟨⟩
    simpa [Told.announced] using hnew
  · cases s <;> rfl

theorem updates_syncContinuous {v v' : Voice} (h : v.syncContinuous job = .ok v') :
    v.Updates job t s v' := by
  obtain ⟨u, hu, h⟩ := bind_ok h
  cases h
  exact ((((updates_syncVolume v).trans (updates_syncFinePitch _)).trans
    (updates_syncVibrato hu)).trans (updates_syncDuty u)).trans
    ((updates_syncFdsModSpeed _).trans (updates_syncFdsModDepth _))

/-! ## Instrument and arpeggio -/

theorem updates_syncArpeggio {v v' : Voice} {note : Note} (h : v.syncArpeggio job note = .ok v') :
    v.Updates job t s v' := by
  cases syncArpeggio_ok h with
  | unsupported => exact (spares_logging v _).updates
  | lacking => exact (spares_logging v _).updates
  | again => exact (spares_issue v .resetArp [] (by cases s <;> rfl)).telling (by cases s <;> rfl)
  | starts =>
    exact (spares_issueAt v .arpOverride _ fun _ => by cases s <;> rfl).telling
      (by cases s <;> rfl)
  | unchanged => exact .refl v
  | ends =>
    apply Spares.telling
    · exact (spares_issueAt v .arpOverride _ fun _ => by cases s <;> rfl).trans
        (spares_issue _ .clearArpOverride [] (by cases s <;> rfl))
    · cases s <;> rfl

/-- Where no channel can replace a patch, an instrument is sent only if the driver was told another
one. -/
theorem told_ne_of_isDue {h : Holding} {index i : Nat} (hpatch : job.channel.isVrc7 = false)
    (hfits : job.fits i = true) (hdue : h.isDue job index i = true) : h.told ≠ some i := by
  have hcustom : job.project.isCustom i = false := by
    obtain ⟨instrument, hi, hkind⟩ := fits_iff.1 hfits
    simp only [InstrumentKind.fits, Bool.and_eq_true, beq_iff_eq] at hkind
    rw [Channel.isVrc7, ← hkind.2] at hpatch
    rw [Project.isCustom, hi, Option.any_some]
    cases h : instrument.kind with
    | vrc7 patch custom => simp [h, InstrumentKind.expansion] at hpatch
    | _ => rfl
  simpa [Holding.isDue, hcustom] using hdue

theorem updates_syncInstrument {v v' : Voice} {note : Note} {index : Nat}
    (hs : s = .instrument → job.Apart) (h : v.syncInstrument job note index = .ok v') :
    v.Updates job t s v' := by
  cases syncInstrument_ok h with
  | noTable => exact .refl _
  | noInstrument => exact .of_eq rfl rfl
  | known => exact .of_eq rfl rfl
  | @sent i slot instrument hpicks hneeds =>
    have hslot := hpicks.slot
    have hfits := fits_iff.2 ⟨instrument, hpicks.found, hpicks.fits⟩
    have hdue := (hpicks.isDue index).trans hneeds
    apply updates_tell (v := { v with wanted := _, lastPatchRow := _ })
    · intro hsets hknown
      obtain rfl : s = .instrument := (Option.some.inj hsets).symm
      have hapart := hs rfl
      simp only [Told.announced, Option.map_eq_some_iff, Option.bind_eq_some_iff,
        Option.filter_eq_some_iff] at hknown
      obtain ⟨old, ⟨k, ⟨hk, hkfits⟩, hkslot⟩, hop⟩ := hknown
      obtain rfl : old = slot := Instruction.instrument.inj hop
      obtain rfl := hapart.slots k i old hkfits hfits hkslot hslot
      exact told_ne_of_isDue hapart.ownPatch hfits hdue hk
    · cases s
      case instrument =>
        simp only [Told.announced, Option.filter_some, hfits, if_true, Option.bind_some, hslot]
        rfl
      all_goals rfl

/-! ## Rows -/

theorem updates_playValue {v v' : Voice} {index : Nat} {row : Row} {rest : List Row} {note : Note}
    {advances : Bool} (hs : s = .instrument → job.Apart)
    (h : v.playValue job index row rest note = .ok (v', advances)) :
    v.Updates job t s v' := by
  cases playValue_ok h with
  | sample _ _ hu h =>
    have hsample := (spares_delays (s := s) _ note).trans (spares_sampleNote h)
    exact (updates_syncContinuous hu).trans hsample.updates
  | @pitch value u w x _ _ hu hw hx =>
    have hsync := ((updates_syncInstrument (t := t) hs hu).trans
      (updates_syncArpeggio hw)).trans (updates_syncContinuous hx)
    exact hsync.trans
      ((spares_delays x note).trans (spares_pitchedNote _ row rest note value)).updates
  | @stop u _ hu =>
    have hstop : u.Spares s ((u.delays job note).emit (.note 0 false)) :=
      (spares_delays u note).trans (spares_emit _ (by cases s <;> rfl))
    exact (updates_syncContinuous hu).trans hstop.updates
  | @release u _ _ hu =>
    have hrelease : u.Spares s ((u.delays job note).emit (.op .release [] [])) :=
      (spares_delays u note).trans (spares_emit _ (by cases s <;> rfl))
    exact (updates_syncContinuous hu).trans hrelease.updates
  | ignored _ _ hu change =>
    exact (updates_syncContinuous hu).trans (spares_logging _ change).updates
  | silent _ hu => exact updates_syncContinuous hu

/-- **A row announces what changes, and nothing else.** -/
theorem updates_processRow {v v' : Voice} {index : Nat} {row : Row} {speed : Option UInt8}
    {rest : List Row} {advances : Bool} (hs : s = .instrument → job.Apart)
    (h : v.processRow job index row speed rest = .ok (v', advances))
    (ht : v'.tables.Extends t) : v.Updates job t s v' := by
  have hafter := (slides_processRow h).2.trans ht
  have htempo : v.Updates job t s (v.tempoOf job row speed) := by
    unfold tempoOf at hafter ⊢
    split
    · rename_i hcarries
      rw [if_pos hcarries] at hafter
      exact (spares_wantTempo v row speed).updates.trans (updates_syncTempo _ hafter)
    · exact (spares_wantTempo v row speed).updates
  cases processRow_ok h with
  | silent => exact htempo
  | @cell note x _ _ hresult =>
    have hvalue := (htempo.trans (spares_want _ note).updates).trans
      (updates_playValue hs hresult)
    exact hvalue.trans (Spares.withSome spares_deltaCounter note.deltaCounter).updates

end Voice

end Stream

end Chiptune
