import Chiptune.Proofs.Renaming

/-!
# The same channel in other tables

What a channel finds in the shared tables decides the numbers of its symbols and grooves, and
nothing else. Two states of a channel that differ in these numbers only are twins (`Twin`), and
every step keeps them so.

* `generate_renames`: a channel that is generated from two tables gives the same stream up to the
  numbers of symbols.
* `generate_again`: **it gives the very same stream** if both tables grow to one.
-/

set_option autoImplicit false

namespace Chiptune.Stream

variable {job : Job}

/-! ## What corresponds in two tables -/

/-- Grooves with the same bytes; a song without grooves has their numbers by itself. -/
def SameGroove (job : Job) (t u : Tables) (i j : Nat) : Prop :=
  match job.project.tempoMode with
  | .speed => i = j
  | .groove => ∃ bytes, t.grooves.find? bytes 0 = some i ∧ u.grooves.find? bytes 0 = some j

/-- Whether a label means the same in all tables that the channel is generated from. -/
def Job.Owns (job : Job) : Label → Prop
  | .streamLoop song channel => song = job.songIndex ∧ channel = job.channel.shortName
  | .envelope index => index = Tables.defaultCurve ∨ index ∈ job.arpeggios
  | _ => False

theorem Job.owns_default : job.Owns (.envelope Tables.defaultCurve) := .inl rfl

theorem Job.owns_loop : job.Owns (.streamLoop job.songIndex job.channel.shortName) := ⟨rfl, rfl⟩

/-- Labels of what is the same for the channel. -/
inductive SameLabel (job : Job) (t u : Tables) : Label → Label → Prop
  | own {label : Label} : job.Owns label → SameLabel job t u label label
  | vibrato {key : UInt8 × UInt8} {i j : Nat} : t.vibratos.lookup key = some i →
      u.vibratos.lookup key = some j → SameLabel job t u (.envelope i) (.envelope j)
  | groove {i j : Nat} : job.project.tempoMode = .groove → SameGroove job t u i j →
      SameLabel job t u (.groove i) (.groove j)

/-- Symbols of what is the same for the channel. -/
def SameSymbol (job : Job) (t u : Tables) (a b : Nat) : Prop :=
  ∃ label label', SameLabel job t u label label' ∧ t.number? (label.text job.stem) = some a ∧
    u.number? (label'.text job.stem) = some b

variable {t u t' u' : Tables}

theorem SameGroove.grow {i j : Nat} (h : SameGroove job t u i j) (ht : t.Extends t')
    (hu : u.Extends u') (hti : t.grooves.Indexed) (hui : u.grooves.Indexed) :
    SameGroove job t' u' i j := by
  unfold SameGroove at h ⊢
  split at h
  · exact h
  · obtain ⟨bytes, hi, hj⟩ := h
    exact ⟨bytes, ht.grooves.find? hti _ _ _ hi, hu.grooves.find? hui _ _ _ hj⟩

/-- Grooves correspond one to one. -/
theorem SameGroove.unique {i j i' j' : Nat} (h : SameGroove job t u i j)
    (h' : SameGroove job t u i' j') : i = i' ↔ j = j' := by
  unfold SameGroove at h h'
  cases hmode : job.project.tempoMode with
  | speed =>
    simp only [hmode] at h h'
    rw [h, h']
  | groove =>
    simp only [hmode] at h h'
    obtain ⟨bytes, hi, hj⟩ := h
    obtain ⟨bytes', hi', hj'⟩ := h'
    constructor
    · rintro rfl
      obtain rfl := Option.some.inj ((UniqueTable.get?_of_find? hi).symm.trans
        (UniqueTable.get?_of_find? hi'))
      exact Option.some.inj (hj.symm.trans hj')
    · rintro rfl
      obtain rfl := Option.some.inj ((UniqueTable.get?_of_find? hj).symm.trans
        (UniqueTable.get?_of_find? hj'))
      exact Option.some.inj (hi.symm.trans hi')

theorem SameLabel.grow {label label' : Label} (h : SameLabel job t u label label')
    (ht : t.Extends t') (hu : u.Extends u') (hti : t.grooves.Indexed)
    (hui : u.grooves.Indexed) : SameLabel job t' u' label label' := by
  cases h with
  | own howns => exact .own howns
  | vibrato hi hj => exact .vibrato (ht.vibratos _ _ hi) (hu.vibratos _ _ hj)
  | groove hmode hij => exact .groove hmode (hij.grow ht hu hti hui)

theorem SameSymbol.grow {a b : Nat} (h : SameSymbol job t u a b) (ht : t.Extends t')
    (hu : u.Extends u') (hti : t.grooves.Indexed) (hui : u.grooves.Indexed) :
    SameSymbol job t' u' a b := by
  obtain ⟨label, label', hlabel, ha, hb⟩ := h
  exact ⟨label, label', hlabel.grow ht hu hti hui, ht.number? ha, hu.number? hb⟩

/-- In one table every symbol corresponds to itself. -/
theorem SameSymbol.eq {a b : Nat} (h : SameSymbol job t t a b) : a = b := by
  obtain ⟨label, label', hlabel, ha, hb⟩ := h
  have heq : label = label' := by
    cases hlabel with
    | own => rfl
    | vibrato hi hj => rw [Option.some.inj (hi.symm.trans hj)]
    | groove hmode hij =>
      simp only [SameGroove, hmode] at hij
      obtain ⟨bytes, hi, hj⟩ := hij
      rw [Option.some.inj (hi.symm.trans hj)]
  rw [heq] at ha
  exact Option.some.inj (ha.symm.trans hb)

/-! ## Twins -/

/-- The voice with other tables, and with what is numbered in them. -/
def Voice.recast (v : Voice) (tables : Tables) (known : Option Nat) (groove : Nat)
    (row : List Instruction) : Voice :=
  { told := { v.told with groove := known }
    wanted := { v.wanted with groove }
    tables
    lastPatchRow := v.lastPatchRow
    row }

/-- States of a channel that differ in their tables and in what is numbered in them. -/
inductive Twin (job : Job) : Voice → Voice → Prop
  | mk {v : Voice} {tables : Tables} {known : Option Nat} {groove : Nat} {row : List Instruction} :
      v.tables.grooves.Indexed → tables.grooves.Indexed →
      Option.Rel (SameGroove job v.tables tables) v.told.groove known →
      SameGroove job v.tables tables v.wanted.groove groove →
      List.Forall₂ (Instruction.Renames (SameSymbol job v.tables tables)) v.row row →
      Twin job v (v.recast tables known groove row)

theorem rel_mono {α β : Type} {R R' : α → β → Prop} (hR : ∀ a b, R a b → R' a b) {x : Option α}
    {y : Option β} (h : Option.Rel R x y) : Option.Rel R' x y := by
  cases h with
  | some hab => exact .some (hR _ _ hab)
  | none => exact .none

namespace Twin

variable {v w : Voice}

theorem eq_recast (h : Twin job v w) :
    ∃ tables known groove row, w = v.recast tables known groove row := by
  obtain ⟨-, -, -, -, -⟩ := h
  exact ⟨_, _, _, _, rfl⟩

theorem left (h : Twin job v w) : v.tables.grooves.Indexed := by
  obtain ⟨hv, -⟩ := h
  exact hv

theorem right (h : Twin job v w) : w.tables.grooves.Indexed := by
  obtain ⟨-, hw, -⟩ := h
  exact hw

theorem known (h : Twin job v w) :
    Option.Rel (SameGroove job v.tables w.tables) v.told.groove w.told.groove := by
  obtain ⟨-, -, hknown, -⟩ := h
  exact hknown

theorem groove (h : Twin job v w) :
    SameGroove job v.tables w.tables v.wanted.groove w.wanted.groove := by
  obtain ⟨-, -, -, hgroove, -⟩ := h
  exact hgroove

theorem row (h : Twin job v w) :
    List.Forall₂ (Instruction.Renames (SameSymbol job v.tables w.tables)) v.row w.row := by
  obtain ⟨-, -, -, -, hrow⟩ := h
  exact hrow

theorem grow (h : Twin job v w) (ht : v.tables.Extends t) (hu : w.tables.Extends u) :
    Twin job { v with tables := t } { w with tables := u } := by
  obtain ⟨hv, hw, hknown, hgroove, hrow⟩ := h
  refine ⟨ht.grooves.indexed hv, hu.grooves.indexed hw, ?_, hgroove.grow ht hu hv hw, ?_⟩
  · exact rel_mono (fun _ _ hij => hij.grow ht hu hv hw) hknown
  · exact hrow.imp fun _ _ => Instruction.Renames.mono fun _ _ hab => hab.grow ht hu hv hw

theorem logging (h : Twin job v w) (change change' : Log → Log) :
    Twin job (v.logging change) (w.logging change') :=
  h.grow (v.tables.extends_logging change) (w.tables.extends_logging change')

theorem emit (h : Twin job v w) {i j : Instruction}
    (hij : i.Renames (SameSymbol job v.tables w.tables) j) : Twin job (v.emit i) (w.emit j) := by
  obtain ⟨hv, hw, hknown, hgroove, hrow⟩ := h
  exact ⟨hv, hw, hknown, hgroove, List.rel_append hrow (.cons hij .nil)⟩

theorem issue (h : Twin job v w) (op : Op) (bytes : List UInt8) :
    Twin job (v.issue job op bytes) (w.issue job op bytes) := by
  unfold Voice.issue
  split
  · exact h.emit (.op op bytes .nil)
  · exact h.logging _ _

theorem issueAt (h : Twin job v w) (op : Op) {label label' : Label}
    (hlabel : SameLabel job v.tables w.tables label label') :
    Twin job (v.issueAt job op label) (w.issueAt job op label') := by
  unfold Voice.issueAt
  split
  · have hv := v.tables.extends_symbol (label.text job.stem)
    have hw := w.tables.extends_symbol (label'.text job.stem)
    refine (h.grow hv hw).emit (.op op [] (.cons (.symbol ?_) .nil))
    exact ⟨label, label', hlabel.grow hv hw h.left h.right, v.tables.number?_symbol _,
      w.tables.number?_symbol _⟩
  · exact h.logging _ _

/-- What the driver was told is changed alike. -/
theorem retold (h : Twin job v w) {told told' : Told}
    (htold : told' = { told with groove := told'.groove })
    (hgroove : Option.Rel (SameGroove job v.tables w.tables) told.groove told'.groove) :
    Twin job { v with told } { w with told := told' } := by
  obtain ⟨hv, hw, -, hwanted, hrow⟩ := h
  rw [htold]
  exact ⟨hv, hw, hgroove, hwanted, hrow⟩

/-- What the song asks for is changed alike. -/
theorem rewanted (h : Twin job v w) {wanted wanted' : Wanted}
    (hwanted : wanted' = { wanted with groove := wanted'.groove })
    (hgroove : SameGroove job v.tables w.tables wanted.groove wanted'.groove) :
    Twin job { v with wanted } { w with wanted := wanted' } := by
  obtain ⟨hv, hw, hknown, -, hrow⟩ := h
  rw [hwanted]
  exact ⟨hv, hw, hknown, hgroove, hrow⟩

/-- The row of the last custom patch is changed alike. -/
theorem relast (h : Twin job v w) (last : Option Nat) :
    Twin job { v with lastPatchRow := last } { w with lastPatchRow := last } := by
  obtain ⟨hv, hw, hknown, hgroove, hrow⟩ := h
  exact ⟨hv, hw, hknown, hgroove, hrow⟩

theorem told_issue (v : Voice) (op : Op) (bytes : List UInt8) (told : Told) :
    { v.issue job op bytes with told } = { v with told }.issue job op bytes := by
  unfold Voice.issue
  split <;> rfl

theorem told_issueAt (v : Voice) (op : Op) (label : Label) (told : Told) :
    { v.issueAt job op label with told } = { v with told }.issueAt job op label := by
  unfold Voice.issueAt
  split <;> rfl

/-- An operation is sent, and the driver was told. -/
theorem issueTold (h : Twin job v w) (op : Op) (bytes : List UInt8) {told told' : Told}
    (htold : told' = { told with groove := told'.groove })
    (hgroove : Option.Rel (SameGroove job v.tables w.tables) told.groove told'.groove) :
    Twin job { v.issue job op bytes with told } { w.issue job op bytes with told := told' } := by
  rw [told_issue, told_issue]
  exact (h.retold htold hgroove).issue op bytes

theorem issueAtTold (h : Twin job v w) (op : Op) {label label' : Label}
    (hlabel : SameLabel job v.tables w.tables label label') {told told' : Told}
    (htold : told' = { told with groove := told'.groove })
    (hgroove : Option.Rel (SameGroove job v.tables w.tables) told.groove told'.groove) :
    Twin job { v.issueAt job op label with told }
      { w.issueAt job op label' with told := told' } := by
  rw [told_issueAt, told_issueAt]
  exact (h.retold htold hgroove).issueAt op hlabel

/-- The default curve takes the place of an override before it ends. -/
theorem issueDefault (h : Twin job v w) (op op' : Op) {told told' : Told}
    (htold : told' = { told with groove := told'.groove })
    (hgroove : Option.Rel (SameGroove job v.tables w.tables) told.groove told'.groove) :
    Twin job
      { (v.issueAt job op (.envelope Tables.defaultCurve)).issue job op' [] with told }
      { (w.issueAt job op (.envelope Tables.defaultCurve)).issue job op' [] with
        told := told' } := by
  rw [told_issue, told_issue, told_issueAt, told_issueAt]
  exact ((h.retold htold hgroove).issueAt op (.own Job.owns_default)).issue op' []

theorem ite {p q : Prop} [Decidable p] [Decidable q] (hpq : p ↔ q) {v' w' : Voice}
    (hthen : p → Twin job v w) (helse : ¬ p → Twin job v' w') :
    Twin job (if p then v else v') (if q then w else w') := by
  by_cases hp : p
  · rw [if_pos hp, if_pos (hpq.1 hp)]
    exact hthen hp
  · rw [if_neg hp, if_neg fun hq => hp (hpq.2 hq)]
    exact helse hp

theorem withSome {α : Type} (h : Twin job v w) (value : Option α) {step step' : Voice → α → Voice}
    (hstep : ∀ v w a, Twin job v w → Twin job (step v a) (step' w a)) :
    Twin job (v.withSome value step) (w.withSome value step') := by
  cases value with
  | none => exact h
  | some a => exact hstep v w a h

/-! ## Tempo -/

theorem sameGroove_groove (h : Twin job v w) (hmode : job.project.tempoMode = .groove)
    (groove : List UInt8) :
    SameGroove job (v.tables.groove groove).2 (w.tables.groove groove).2
      (v.tables.groove groove).1 (w.tables.groove groove).1 := by
  simp only [SameGroove, hmode]
  exact ⟨Tables.grooveBytes groove, UniqueTable.find?_intern h.left _ _,
    UniqueTable.find?_intern h.right _ _⟩

theorem wantTempo (h : Twin job v w) (row : Row) (speed : Option UInt8) :
    Twin job (v.wantTempo job row speed) (w.wantTempo job row speed) := by
  obtain ⟨tables, known, groove, is, rfl⟩ := h.eq_recast
  unfold Voice.wantTempo
  cases hmode : job.project.tempoMode with
  | speed =>
    simp only
    split
    · exact (h.logging _ _).rewanted rfl (h.logging _ _).groove
    · exact h
  | groove =>
    refine logging ?_ _ _
    split
    · rename_i groove' _
      exact (h.grow (v.tables.extends_groove _) (tables.extends_groove _)).rewanted rfl
        (h.sameGroove_groove hmode groove')
    · exact h

theorem known_iff (h : Twin job v w) :
    v.told.groove = some v.wanted.groove ↔ w.told.groove = some w.wanted.groove := by
  have hgroove := h.groove
  have hknown := h.known
  generalize v.told.groove = a, w.told.groove = b at hknown
  cases hknown with
  | some hij => simpa using hij.unique hgroove
  | none => simp

theorem syncTempo (h : Twin job v w) : Twin job (v.syncTempo job) (w.syncTempo job) := by
  have hknown := h.known_iff
  obtain ⟨tables, known, groove, is, rfl⟩ := h.eq_recast
  unfold Voice.syncTempo
  cases hmode : job.project.tempoMode with
  | speed =>
    exact ite Iff.rfl (fun _ => h) fun _ => ite Iff.rfl
      (fun _ => h.issueTold .speed _ rfl h.known) fun _ => h.logging _ _
  | groove =>
    exact ite hknown (fun _ => h) fun _ => ite Iff.rfl
      (fun _ => h.issueAtTold .groove (.groove hmode h.groove) rfl (.some h.groove))
      fun _ => h.logging _ _

/-! ## Attributes -/

theorem want (h : Twin job v w) (note : Note) : Twin job (v.want job note) (w.want job note) := by
  have hvolume : ∀ v w a, Twin job v w → Twin job (v.wantVolume job a) (w.wantVolume job a) := by
    intro v w a h
    obtain ⟨tables, known, groove, is, rfl⟩ := h.eq_recast
    exact ite Iff.rfl (fun _ => (h.logging _ _).rewanted rfl (h.logging _ _).groove)
      fun _ => h.logging _ _
  have hpitch : ∀ v w a, Twin job v w →
      Twin job (v.wantFinePitch job a) (w.wantFinePitch job a) := by
    intro v w a h
    obtain ⟨tables, known, groove, is, rfl⟩ := h.eq_recast
    exact ite Iff.rfl (fun _ => h.rewanted rfl h.groove) fun _ => h.logging _ _
  have hvibrato : ∀ v w a, Twin job v w → Twin job (v.wantVibrato job a) (w.wantVibrato job a) := by
    intro v w a h
    obtain ⟨tables, known, groove, is, rfl⟩ := h.eq_recast
    exact ite Iff.rfl (fun _ => h.rewanted rfl h.groove) fun _ => h.logging _ _
  have hduty : ∀ v w a, Twin job v w → Twin job (v.wantDuty job a) (w.wantDuty job a) := by
    intro v w a h
    obtain ⟨tables, known, groove, is, rfl⟩ := h.eq_recast
    exact ite Iff.rfl (fun _ => (h.logging _ _).rewanted rfl (h.logging _ _).groove)
      fun _ => h.logging _ _
  have hspeed : ∀ v w a, Twin job v w → Twin job (v.wantFdsModSpeed a) (w.wantFdsModSpeed a) := by
    intro v w a h
    obtain ⟨tables, known, groove, is, rfl⟩ := h.eq_recast
    exact (h.logging _ _).rewanted rfl (h.logging _ _).groove
  have hdepth : ∀ v w a, Twin job v w → Twin job (v.wantFdsModDepth a) (w.wantFdsModDepth a) := by
    intro v w a h
    obtain ⟨tables, known, groove, is, rfl⟩ := h.eq_recast
    exact (h.logging _ _).rewanted rfl (h.logging _ _).groove
  have hfour := (((h.withSome note.volume hvolume).withSome note.finePitch hpitch).withSome
    note.vibrato hvibrato).withSome note.duty hduty
  exact ite Iff.rfl (fun _ => ite Iff.rfl
    (fun _ => (hfour.withSome note.fdsModSpeed hspeed).withSome note.fdsModDepth hdepth)
    fun _ => hfour.logging _ _) fun _ => hfour

/-! ## What the driver does not have yet -/

theorem syncVolume (h : Twin job v w) : Twin job (v.syncVolume job) (w.syncVolume job) := by
  obtain ⟨tables, known, groove, is, rfl⟩ := h.eq_recast
  exact ite Iff.rfl (fun _ => h) fun _ => ite Iff.rfl
    (fun _ => h.issueTold .volume _ rfl h.known) fun _ => h.logging _ _

theorem syncFinePitch (h : Twin job v w) :
    Twin job (v.syncFinePitch job) (w.syncFinePitch job) := by
  obtain ⟨tables, known, groove, is, rfl⟩ := h.eq_recast
  exact ite Iff.rfl (fun _ => h) fun _ => ite Iff.rfl
    (fun _ => h.issueTold .finePitch _ rfl h.known) fun _ => h.logging _ _

theorem syncDuty (h : Twin job v w) : Twin job (v.syncDuty job) (w.syncDuty job) := by
  obtain ⟨tables, known, groove, is, rfl⟩ := h.eq_recast
  refine withSome h v.wanted.duty fun v w duty h => ?_
  obtain ⟨tables, known, groove, is, rfl⟩ := h.eq_recast
  exact ite Iff.rfl (fun _ => h) fun _ => ite Iff.rfl
    (fun _ => h.issueTold .duty _ rfl h.known) fun _ => h.logging _ _

theorem syncFdsModSpeed (h : Twin job v w) :
    Twin job (v.syncFdsModSpeed job) (w.syncFdsModSpeed job) := by
  obtain ⟨tables, known, groove, is, rfl⟩ := h.eq_recast
  refine withSome h v.wanted.fdsModSpeed fun v w speed h => ?_
  obtain ⟨tables, known, groove, is, rfl⟩ := h.eq_recast
  exact ite Iff.rfl (fun _ => h) fun _ => ite Iff.rfl
    (fun _ => h.issueTold .fdsModSpeed _ rfl h.known) fun _ => h.logging _ _

theorem syncFdsModDepth (h : Twin job v w) :
    Twin job (v.syncFdsModDepth job) (w.syncFdsModDepth job) := by
  obtain ⟨tables, known, groove, is, rfl⟩ := h.eq_recast
  refine withSome h v.wanted.fdsModDepth fun v w depth h => ?_
  obtain ⟨tables, known, groove, is, rfl⟩ := h.eq_recast
  exact ite Iff.rfl (fun _ => h) fun _ => ite Iff.rfl
    (fun _ => h.issueTold .fdsModDepth _ rfl h.known) fun _ => h.logging _ _

theorem delays (h : Twin job v w) (note : Note) :
    Twin job (v.delays job note) (w.delays job note) :=
  (h.withSome note.noteDelay fun _ _ delay h => h.issue .noteDelay [delay]).withSome note.cutDelay
    fun _ _ delay h => h.issue .cutDelay [delay]

/-! ## Notes -/

theorem plainNote (h : Twin job v w) (value : UInt8) :
    Twin job (v.plainNote job value) (w.plainNote job value) := by
  unfold Voice.plainNote
  split
  · exact h.emit (.note value false)
  · exact h.issue .extendedNote [value]

theorem pitchedNote (h : Twin job v w) (row : Row) (rest : List Row) (note : Note) (value : UInt8) :
    Twin job (v.pitchedNote job row rest note value) (w.pitchedNote job row rest note value) := by
  obtain ⟨tables, known, groove, is, rfl⟩ := h.eq_recast
  unfold Voice.pitchedNote
  cases note.slideTo with
  | none => exact (h.logging _ _).plainNote _
  | some target =>
    -- both values are clamped before anything is sent
    have hclamped := fun a b c d => (h.logging a b).logging c d
    exact ite Iff.rfl (fun _ => ((hclamped _ _ _ _).logging _ _).plainNote _) fun _ => ite Iff.rfl
      (fun _ => ((hclamped _ _ _ _).logging _ _).plainNote _) fun _ => ite Iff.rfl
      (fun _ => (hclamped _ _ _ _).plainNote _) fun _ => (hclamped _ _ _ _).issue .slide _

theorem renames_insertBeforeNote {S : Nat → Nat → Prop} {i j : Instruction} (hij : i.Renames S j)
    {is js : List Instruction} (h : List.Forall₂ (Instruction.Renames S) is js) :
    List.Forall₂ (Instruction.Renames S) (Voice.insertBeforeNote i is)
      (Voice.insertBeforeNote j js) := by
  induction h with
  | nil => exact .cons hij .nil
  | cons hfirst hrest ih =>
    rw [Voice.insertBeforeNote, Voice.insertBeforeNote, hfirst.advancesRow]
    split
    · exact .cons hij (.cons hfirst hrest)
    · exact .cons hfirst ih

theorem deltaCounter (h : Twin job v w) (value : UInt8) :
    Twin job (v.deltaCounter job value) (w.deltaCounter job value) := by
  obtain ⟨tables, known, groove, is, rfl⟩ := h.eq_recast
  refine ite Iff.rfl (fun _ => h.logging _ _) fun _ => ite Iff.rfl (fun _ => ?_)
    fun _ => (h.logging _ _).logging _ _
  obtain ⟨hv, hw, hknown, hgroove, hrow⟩ := h.logging _ _
  exact ⟨hv, hw, hknown, hgroove, renames_insertBeforeNote (.op .deltaCounter _ .nil) hrow⟩

end Twin

/-! ## Steps that may fail -/

/-- Results of two steps, if both give one, are related. -/
def Agree {ε ε' α β : Type} (R : α → β → Prop) (x : Except ε α) (y : Except ε' β) : Prop :=
  ∀ a b, x = .ok a → y = .ok b → R a b

namespace Agree

variable {ε ε' α β γ δ : Type} {R : α → β → Prop} {Q : γ → δ → Prop}

theorem ok {a : α} {b : β} (h : R a b) : Agree R (.ok a : Except ε α) (.ok b : Except ε' β) := by
  rintro _ _ ⟨⟩ ⟨⟩
  exact h

theorem error (e : ε) (y : Except ε' β) : Agree R (.error e) y := by
  rintro _ _ ⟨⟩

theorem bind {x : Except ε α} {y : Except ε' β} {f : α → Except ε γ} {g : β → Except ε' δ}
    (h : Agree R x y) (hfg : ∀ a b, R a b → Agree Q (f a) (g b)) :
    Agree Q (x >>= f) (y >>= g) := by
  intro c d hc hd
  cases x with
  | error e => cases hc
  | ok a =>
    cases y with
    | error e => cases hd
    | ok b => exact hfg a b (h a b rfl rfl) c d hc hd

theorem ite {p q : Prop} [Decidable p] [Decidable q] (hpq : p ↔ q) {x x' : Except ε α}
    {y y' : Except ε' β} (hthen : p → Agree R x y) (helse : ¬ p → Agree R x' y') :
    Agree R (if p then x else x') (if q then y else y') := by
  by_cases hp : p
  · rw [if_pos hp, if_pos (hpq.1 hp)]
    exact hthen hp
  · rw [if_neg hp, if_neg fun hq => hp (hpq.2 hq)]
    exact helse hp

theorem attempt {v w : Voice} {fail : ε → Error} {fail' : ε' → Error} {x : Except ε α}
    {y : Except ε' β} (h : Agree R x y) : Agree R (v.attempt fail x) (w.attempt fail' y) :=
  fun a b ha hb => h a b (Voice.attempt_ok ha) (Voice.attempt_ok hb)

end Agree

namespace Twin

variable {v w : Voice}

theorem syncVibrato (h : Twin job v w) :
    Agree (Twin job) (v.syncVibrato job) (w.syncVibrato job) := by
  obtain ⟨tables, known, groove, is, rfl⟩ := h.eq_recast
  refine .ite Iff.rfl (fun _ => .ok h) fun _ => .ite Iff.rfl (fun _ => ?_)
    fun _ => .ok (h.logging _ _)
  have hwanted : (v.recast tables known groove is).wanted.vibrato = v.wanted.vibrato := rfl
  simp only [hwanted]
  cases v.wanted.vibrato with
  | none =>
    refine .ok ?_
    exact h.issueDefault .vibratoOverride .clearPitchOverride rfl h.known
  | some setting =>
    refine Agree.bind (R := fun x y => v.tables.vibrato setting = .ok x ∧
      tables.vibrato setting = .ok y) (fun a b ha hb => ⟨ha, hb⟩) ?_
    rintro ⟨index, t⟩ ⟨index', u⟩ ⟨ht, hu⟩
    obtain ⟨hv, hindex⟩ := Tables.vibrato_ok ht
    obtain ⟨hw, hindex'⟩ := Tables.vibrato_ok hu
    have hgrown := h.grow hv hw
    refine .ok ?_
    exact hgrown.issueAtTold .vibratoOverride (.vibrato hindex hindex') rfl hgrown.known

theorem syncContinuous (h : Twin job v w) :
    Agree (Twin job) (v.syncContinuous job) (w.syncContinuous job) :=
  h.syncVolume.syncFinePitch.syncVibrato.bind fun _ _ h =>
    .ok h.syncDuty.syncFdsModSpeed.syncFdsModDepth

theorem syncInstrument (h : Twin job v w) (note : Note) (row : Nat) :
    Agree (Twin job) (v.syncInstrument job note row) (w.syncInstrument job note row) := by
  obtain ⟨tables, known, groove, is, rfl⟩ := h.eq_recast
  refine .ite Iff.rfl (fun _ => .ok h) fun _ => ?_
  have hwanted : (v.recast tables known groove is).wanted.instrument = v.wanted.instrument := rfl
  simp only [hwanted]
  cases (note.instrument <|> v.wanted.instrument) with
  | none => exact .ok (h.rewanted rfl h.groove)
  | some index =>
    simp only
    cases job.project.instruments[index]? with
    | none => exact .error _ _
    | some instrument =>
      refine .ite Iff.rfl (fun _ => .error _ _) fun _ => ?_
      cases job.slots.slot index with
      | none => exact .error _ _
      | some slot =>
        -- the row of the last custom patch is the same in both
        have hset : ∀ last, Twin job
            { v with wanted := { v.wanted with instrument := some index }, lastPatchRow := last }
            { v.recast tables known groove is with
              wanted := { (v.recast tables known groove is).wanted with instrument := some index }
              lastPatchRow := last } :=
          fun last => (h.relast last).rewanted rfl h.groove
        cases instrument.kind.isVrc7Custom
        · refine .ite Iff.rfl (fun _ => .ok ?_) fun _ => .ok (hset _)
          exact ((hset _).emit (.instrument slot)).retold rfl h.known
        · refine .ite Iff.rfl (fun _ => .ok ?_) fun _ => .ok (hset _)
          exact ((hset _).emit (.instrument slot)).retold rfl h.known

theorem syncArpeggio (h : Twin job v w) (note : Note) :
    Agree (Twin job) (v.syncArpeggio job note) (w.syncArpeggio job note) := by
  obtain ⟨tables, known, groove, is, rfl⟩ := h.eq_recast
  unfold Voice.syncArpeggio
  cases note.arpeggio with
  | none =>
    refine .ite Iff.rfl (fun _ => .ok h) fun _ => .ite Iff.rfl (fun _ => .ok h) fun _ => .ok ?_
    exact h.issueDefault .arpOverride .clearArpOverride rfl h.known
  | some index =>
    simp only
    cases hcurve : job.arpeggios[index]? with
    | none => exact .error _ _
    | some curve =>
      have howns : job.Owns (.envelope curve) := .inr (List.mem_of_getElem? hcurve)
      refine .ite Iff.rfl (fun _ => .ok (h.logging _ _)) fun _ => .ite Iff.rfl
        (fun _ => .ok (h.logging _ _)) fun _ => .ite Iff.rfl (fun _ => .ok ?_) fun _ => .ok ?_
      · exact h.issueTold .resetArp [] rfl h.known
      · exact h.issueAtTold .arpOverride (.own howns) rfl h.known

theorem sampleNote (h : Twin job v w) (value : UInt8) :
    Agree (fun x y => Twin job x.1 y.1 ∧ x.2 = y.2) (v.sampleNote job value)
      (w.sampleNote job value) := by
  unfold Voice.sampleNote
  split
  · exact .ok ⟨h.logging _ _, rfl⟩
  · split
    · exact .error _ _
    · exact .ite Iff.rfl (fun _ => .error _ _) fun _ => .ite Iff.rfl
        (fun _ => .ok ⟨h.logging _ _, rfl⟩) fun _ => .ok ⟨h.emit (.note _ false), rfl⟩

theorem playValue (h : Twin job v w) (index : Nat) (row : Row) (rest : List Row) (note : Note) :
    Agree (fun x y => Twin job x.1 y.1 ∧ x.2 = y.2) (v.playValue job index row rest note)
      (w.playValue job index row rest note) := by
  unfold Voice.playValue
  split
  · refine .ite Iff.rfl (fun _ => ?_) fun _ => ?_
    · exact h.syncContinuous.attempt.bind fun _ _ h => ((h.delays note).sampleNote _).attempt
    · refine (h.syncInstrument note index).attempt.bind fun _ _ h => ?_
      refine (h.syncArpeggio note).attempt.bind fun _ _ h => ?_
      refine h.syncContinuous.attempt.bind fun _ _ h => .ok ⟨?_, rfl⟩
      exact (h.delays note).pitchedNote row rest note _
  · exact h.syncContinuous.attempt.bind fun _ _ h => .ok ⟨(h.delays note).emit (.note 0 false), rfl⟩
  · refine h.syncContinuous.attempt.bind fun _ _ h => .ite Iff.rfl (fun _ => .ok ⟨?_, rfl⟩)
      fun _ => .ok ⟨h.logging _ _, rfl⟩
    exact (h.delays note).issue .release []
  · exact h.syncContinuous.attempt.bind fun _ _ h => .ok ⟨h, rfl⟩

/-- **Rows keep twins alike.** -/
theorem processRow (h : Twin job v w) (index : Nat) (row : Row) (speed : Option UInt8)
    (rest : List Row) :
    Agree (fun x y => Twin job x.1 y.1 ∧ x.2 = y.2) (v.processRow job index row speed rest)
      (w.processRow job index row speed rest) := by
  have htempo : Twin job
      (if job.carriesTempo then (v.wantTempo job row speed).syncTempo job
        else v.wantTempo job row speed)
      (if job.carriesTempo then (w.wantTempo job row speed).syncTempo job
        else w.wantTempo job row speed) :=
    ite Iff.rfl (fun _ => (h.wantTempo row speed).syncTempo) fun _ => h.wantTempo row speed
  unfold Voice.processRow
  cases row.note with
  | none => exact .ok ⟨htempo, rfl⟩
  | some note =>
    refine ((htempo.want note).playValue index row rest note).bind fun x y hxy => .ok ⟨?_, hxy.2⟩
    exact hxy.1.withSome note.deltaCounter fun _ _ value h => h.deltaCounter value

end Twin

/-! ## Whole channels -/

theorem Twin.marked {v w : Voice} (h : Twin job v w) (rows : List Row)
    (speeds : List (Option UInt8)) (loopAt : Option Nat) (index : Nat) :
    Twin job (marked job rows speeds loopAt index v).2 (marked job rows speeds loopAt index w).2 ∧
      List.Forall₂ (Piece.Renames (SameSymbol job
          (marked job rows speeds loopAt index v).2.tables
          (marked job rows speeds loopAt index w).2.tables))
        (marked job rows speeds loopAt index v).1 (marked job rows speeds loopAt index w).1 := by
  unfold Stream.marked
  split
  · let loop := (Label.streamLoop job.songIndex job.channel.shortName).text job.stem
    have hgrown := h.grow (v.tables.extends_symbol loop) (w.tables.extends_symbol loop)
    have hgrown := hgrown.relast none
    obtain ⟨tables, known, groove, is, rfl⟩ := h.eq_recast
    refine ⟨hgrown.retold rfl ?_, .cons (.mark ⟨_, _, .own Job.owns_loop, ?_, ?_⟩) .nil⟩
    · -- the groove is forgotten in both or in none
      have hknown := hgrown.known
      simp only [Told.forget, keepUnless]
      split
      · exact .none
      · exact hknown
    · exact v.tables.number?_symbol loop
    · exact tables.number?_symbol loop
  · exact ⟨h, .nil⟩

/-- **Runs over the same rows keep twins alike**, and their pieces correspond. -/
theorem Runs.twin {rows : List Row} {speeds : List (Option UInt8)} {loopAt : Option Nat}
    {index : Nat} {rest : List Row} {later : List (Option UInt8)} {v v' w w' : Voice}
    {ps qs : List Piece} (hv : Runs job rows speeds loopAt index rest later v ps v')
    (hw : Runs job rows speeds loopAt index rest later w qs w') (h : Twin job v w)
    (hrow : v.row = []) :
    Twin job v' w' ∧
      List.Forall₂ (Piece.Renames (SameSymbol job v'.tables w'.tables)) ps qs := by
  induction hv generalizing w qs with
  | nil =>
    cases hw
    exact ⟨h, .nil⟩
  | @cons index row rest later v u v' advances more hstep hmore ih =>
    cases hw with
    | @cons _ _ _ _ _ x _ advances' more' hstep' hmore' =>
      have hempty : w.row = [] := by
        have hforall := h.row
        rw [hrow] at hforall
        exact List.forall₂_nil_left_iff.1 hforall
      obtain ⟨hmarked, hmarks⟩ := h.marked rows speeds loopAt index
      obtain ⟨hux, hadvances⟩ :=
        hmarked.processRow index row later.head?.join rest _ _ hstep hstep'
      simp only at hux hadvances
      subst hadvances
      have hnext : Twin job { u with row := [] } { x with row := [] } := by
        obtain ⟨hv, hw, hknown, hgroove, -⟩ := hux
        exact ⟨hv, hw, hknown, hgroove, .nil⟩
      obtain ⟨hend, hpieces⟩ := ih hmore' hnext rfl
      -- what corresponds on a row still does in the tables behind the run
      have hu := hmore.tables rfl
      have hx := hmore'.tables rfl
      have hrows := hux.row.imp fun _ _ =>
        Instruction.Renames.mono fun _ _ hab => hab.grow hu hx hux.left hux.right
      have hplays := (Voice.plays_processRow (by rw [row_marked, hrow]) hstep).tables
      have hplays' := (Voice.plays_processRow (by rw [row_marked, hempty]) hstep').tables
      have hmarks := hmarks.imp fun _ _ => Piece.Renames.mono fun _ _ hab =>
        hab.grow (hplays.trans hu) (hplays'.trans hx) hmarked.left hmarked.right
      exact ⟨hend, List.rel_append hmarks (.cons (.row advances hrows) hpieces)⟩

theorem Twin.opening (rows : List Row) (ht : t.grooves.Indexed) (hu : u.grooves.Indexed) :
    Twin job (opening job rows t) (opening job rows u) := by
  refine Twin.logging ?_ _ _
  unfold Voice.start
  cases hmode : job.project.tempoMode with
  | speed =>
    have hsame : SameGroove job t u 0 0 := by simp [SameGroove, hmode]
    exact ⟨ht, hu, .some hsame, hsame, .nil⟩
  | groove =>
    have hv := t.extends_groove job.song.groove
    have hw := u.extends_groove job.song.groove
    have hsame : SameGroove job (t.groove job.song.groove).2 (u.groove job.song.groove).2
        (t.groove job.song.groove).1 (u.groove job.song.groove).1 := by
      simp only [SameGroove, hmode]
      exact ⟨_, UniqueTable.find?_intern ht _ _, UniqueTable.find?_intern hu _ _⟩
    exact ⟨hv.grooves.indexed ht, hw.grooves.indexed hu, .some hsame, hsame, .nil⟩

/-- The last instructions of a channel correspond. -/
theorem renames_lastInstruction (loopAt : Option Nat) (v w : Voice) :
    (lastInstruction job loopAt v).Renames
      (SameSymbol job (ending job loopAt v).tables (ending job loopAt w).tables)
      (lastInstruction job loopAt w) := by
  unfold lastInstruction ending
  cases loopAt with
  | none => exact .op .halt [] .nil
  | some index =>
    have hsupports : job.kernel.supports .jump = true := by cases job.kernel <;> rfl
    simp only [Voice.issueAt, if_pos hsupports]
    refine .op .jump [] (.cons (.symbol ⟨_, _, .own Job.owns_loop, ?_, ?_⟩) .nil)
    · exact v.tables.number?_symbol _
    · exact w.tables.number?_symbol _

/-- **A channel gives the same stream from any tables**, up to the numbers of symbols. -/
theorem generate_renames {tokens tokens' : List Token} (ht : t.grooves.Indexed)
    (hu : u.grooves.Indexed) (h : generate job t = (.ok tokens, t'))
    (h' : generate job u = (.ok tokens', u')) :
    List.Forall₂ (Token.Renames (SameSymbol job t' u')) tokens tokens' := by
  obtain ⟨rows, speeds, loopAt, ps, v, hrows, hspeeds, hloop, hruns, htokens, rfl⟩ := generate_ok h
  obtain ⟨rows', speeds', loopAt', qs, w, hrows', hspeeds', hloop', hruns', htokens', rfl⟩ :=
    generate_ok h'
  obtain rfl := Except.ok.inj (hrows.symm.trans hrows')
  obtain rfl := Except.ok.inj (hspeeds.symm.trans hspeeds')
  have hsame : loopAt = loopAt' := by rw [hloop, hloop', loopRow_log]
  subst hsame
  obtain ⟨htwin, hpieces⟩ := hruns.twin hruns' (.opening rows ht hu) rfl
  have hpieces := hpieces.imp fun _ _ => Piece.Renames.mono fun _ _ hab =>
    hab.grow (@extends_ending job loopAt v) (@extends_ending job loopAt w) htwin.left htwin.right
  exact Instruction.renames_encodeAll (List.rel_append (renames_join job.kernel hpieces {})
    (.cons (renames_lastInstruction loopAt v w) .nil)) htokens htokens'

/-- **A channel gives the very same stream again** if the tables of both runs grow to one. -/
theorem generate_again {tokens tokens' : List Token} {last : Tables} (ht : t.grooves.Indexed)
    (hu : u.grooves.Indexed) (h : generate job t = (.ok tokens, t'))
    (h' : generate job u = (.ok tokens', u')) (hlast : t'.Extends last)
    (hlast' : u'.Extends last) : tokens = tokens' := by
  have hindexed := (extends_generate h).grooves.indexed ht
  have hindexed' := (extends_generate h').grooves.indexed hu
  have hrenames := (generate_renames ht hu h h').imp fun _ _ =>
    Token.Renames.mono fun _ _ hab => hab.grow hlast hlast' hindexed hindexed'
  exact Token.eq_of_renames (fun _ _ hab => hab.eq) hrenames

end Chiptune.Stream
