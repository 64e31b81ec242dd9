import Chiptune.Proofs.Capabilities
import Chiptune.Proofs.EveryCurve
import Chiptune.Proofs.LoopRows
import Chiptune.Proofs.Slots

/-!
# Rows that can be written

The writer of a row asks the kernel first whether it has an operation, and whether a note fits one
byte, so that every instruction has an encoding, and no shorter one. An address is the number of a
symbol that was interned for an entry of the tables (`Label.IsEntry`), and these only grow.

* `Voice.ready_processRow`, `Runs.ready`: **what a row and a run send can be encoded and leads to
  entries**, by an invariant of the voice.
* `encodes_join`: joining the rows to a stream adds only what can be encoded.
* `Runs.encodes`: **the stream of a run has tokens**.
* `generate_shortest`: no note of a stream is longer than it has to be.
* `generate_leads`: **every address of a stream names an entry**, or its loop label.
-/

set_option autoImplicit false

namespace Chiptune

/-! ## Entries that addresses name -/

/-- A label of an entry that the tables hold. -/
inductive Label.IsEntry (t : Tables) : Label → Prop
  | envelope {index : Nat} {bytes : List UInt8} :
      t.curves.get? index = some bytes → IsEntry t (.envelope index)
  | groove {index : Nat} {bytes : List UInt8} :
      t.grooves.find? bytes 0 = some index → IsEntry t (.groove index)

theorem Label.IsEntry.mono {t t' : Tables} {label : Label} (h : label.IsEntry t)
    (ht : t.Extends t') (hi : t.grooves.Indexed) : label.IsEntry t' := by
  cases h with
  | envelope h => exact .envelope (ht.curves _ _ h)
  | groove h => exact .groove (ht.grooves.find? hi _ _ _ h)

/-- An address that names an entry of the tables. -/
def Target.Leads (stem : String) (t : Tables) : Target → Prop
  | .symbol id => ∃ label : Label, label.IsEntry t ∧ t.symbols.name? id = some (label.text stem)
  | .offset _ => False

theorem Target.Leads.mono {stem : String} {t t' : Tables} {target : Target}
    (h : target.Leads stem t) (ht : t.Extends t') (hi : t.grooves.Indexed) :
    target.Leads stem t' := by
  cases target with
  | symbol id =>
    obtain ⟨label, hlabel, hname⟩ := h
    exact ⟨label, hlabel.mono ht hi, ht.name? hname⟩
  | offset position => exact h

/-- The kernel has an encoding for an instruction. -/
def Instruction.Encodes (k : Kernel) (i : Instruction) : Prop := ∃ tokens, i.encode k = .ok tokens

/-- A note that fits one byte is not sent as an operation. -/
def Instruction.IsShortest (k : Kernel) : Instruction → Prop
  | op .extendedNote bytes _ => ∀ value ∈ bytes, k.noteByte value = none
  | _ => True

/-- The addresses of an instruction name entries of the tables. -/
def Instruction.Leads (stem : String) (t : Tables) : Instruction → Prop
  | op _ _ targets => ∀ target ∈ targets, target.Leads stem t
  | _ => True

theorem Instruction.Leads.mono {stem : String} {t t' : Tables} {i : Instruction}
    (h : i.Leads stem t) (ht : t.Extends t') (hi : t.grooves.Indexed) : i.Leads stem t' := by
  cases i with
  | op o bytes targets => exact fun target hmem => (h target hmem).mono ht hi
  | _ => trivial

theorem Instruction.encodes_op {k : Kernel} {o : Op} (h : k.supports o = true)
    (bytes : List UInt8) (targets : List Target) : (op o bytes targets).Encodes k := by
  obtain ⟨byte, hbyte⟩ := Option.isSome_iff_exists.1 h
  simp only [Encodes, encode, hbyte]
  exact ⟨_, rfl⟩

theorem Instruction.encodes_note {k : Kernel} {value byte : UInt8}
    (h : k.noteByte value = some byte) : (note value false).Encodes k := by
  simp only [Encodes, encode, h, Bool.false_and, Bool.false_eq_true, if_false]
  split <;> exact ⟨_, rfl⟩

/-- **Tables that a channel can be written with**: they have the curves of the arpeggios, the
default curve and those of all vibratos. -/
structure Tables.Backs (t : Tables) (arpeggios : List Nat) : Prop where
  sound : t.Sound
  curves : t.curves.Indexed
  indexed : t.grooves.Indexed
  arpeggios : ∀ index ∈ arpeggios, ∃ bytes, t.curves.get? index = some bytes

theorem Tables.Backs.mono {t t' : Tables} {arpeggios : List Nat} (h : t.Backs arpeggios)
    (ht : t.Extends t') : t'.Backs arpeggios where
  sound := ht.sound h.sound
  curves := ht.found.indexed h.curves
  indexed := ht.grooves.indexed h.indexed
  arpeggios index hmem := by
    obtain ⟨bytes, hbytes⟩ := h.arpeggios index hmem
    exact ⟨bytes, ht.curves _ _ hbytes⟩

namespace Stream

variable {job : Job} {rows : List Row} {speeds : List (Option UInt8)} {loopAt : Option Nat}

/-- **An instruction that can be written**: it has an encoding and no shorter one, and its addresses
name entries. -/
structure Ready (job : Job) (t : Tables) (i : Instruction) : Prop where
  encodes : i.Encodes job.kernel
  shortest : i.IsShortest job.kernel
  leads : i.Leads job.stem t

/-- An operation without addresses that the kernel has can be written. -/
theorem ready_op {t : Tables} {o : Op} {bytes : List UInt8} (h : job.kernel.supports o = true)
    (hs : (Instruction.op o bytes []).IsShortest job.kernel) : Ready job t (.op o bytes []) :=
  ⟨Instruction.encodes_op h _ _, hs, fun _ hmem => absurd hmem List.not_mem_nil⟩

/-! ## The invariant of a voice -/

/-- The groove of a voice is one of the tables. -/
def Grooved (job : Job) (t : Tables) (groove : Nat) : Prop :=
  job.project.tempoMode = .groove → ∃ bytes, t.grooves.find? bytes 0 = some groove

/-- **A voice whose row can be written.** -/
structure Voice.Ready (job : Job) (v : Voice) : Prop where
  backed : v.tables.Backs job.arpeggios
  groove : Grooved job v.tables v.wanted.groove
  row : ∀ i ∈ v.row, Stream.Ready job v.tables i

namespace Voice

variable {v : Voice}

/-! ## Primitive steps -/

theorem Ready.extend (h : v.Ready job) {t : Tables} (ht : v.tables.Extends t) :
    Ready job { v with tables := t } where
  backed := h.backed.mono ht
  groove hmode := by
    obtain ⟨bytes, hbytes⟩ := h.groove hmode
    exact ⟨bytes, ht.grooves.find? h.backed.indexed _ _ _ hbytes⟩
  row i hi := { h.row i hi with leads := (h.row i hi).leads.mono ht h.backed.indexed }

theorem Ready.logging (h : v.Ready job) (change : Log → Log) : (v.logging change).Ready job :=
  h.extend (Tables.extends_logging _ _)

theorem Ready.clamped (h : v.Ready job) (value low high : UInt8) (what : String) :
    (v.clamped value low high what).2.Ready job :=
  h.logging _

theorem Ready.tell (h : v.Ready job) (told : Told) : Ready job { v with told } := { h with }

/-- Of what the song asks for, only the groove is sent as an address of its own. -/
theorem Ready.take (h : v.Ready job) {wanted : Wanted} (hw : wanted.groove = v.wanted.groove) :
    Ready job { v with wanted } :=
  { h with groove := hw ▸ h.groove }

theorem Ready.emit (h : v.Ready job) {i : Instruction} (hi : Stream.Ready job v.tables i) :
    (v.emit i).Ready job :=
  { h with
    row := fun j hj => by
      rcases List.mem_append.1 hj with hj | hj
      · exact h.row j hj
      · rw [List.mem_singleton.1 hj]
        exact hi }

/-- An operation is sent only to a kernel that has it. -/
theorem Ready.issue (h : v.Ready job) (op : Op) {bytes : List UInt8}
    (hs : (Instruction.op op bytes []).IsShortest job.kernel) :
    (v.issue job op bytes).Ready job := by
  unfold Voice.issue
  split
  · rename_i hk
    exact h.emit (ready_op hk hs)
  · exact h.logging _

/-- The address of an entry is sent as the number of its label. -/
theorem Ready.issueAt (h : v.Ready job) (op : Op) {label : Label} (hl : label.IsEntry v.tables) :
    (v.issueAt job op label).Ready job := by
  unfold Voice.issueAt
  split
  · rename_i hk
    have ht := Tables.extends_symbol v.tables (label.text job.stem)
    refine (h.extend ht).emit ⟨Instruction.encodes_op hk _ _, ?_, fun target hmem => ?_⟩
    · cases op <;> simp [Instruction.IsShortest]
    · rw [List.mem_singleton.1 hmem]
      exact ⟨label, hl.mono ht h.backed.indexed, Tables.name?_symbol _ _⟩
  · exact h.logging _

theorem Ready.withSome {α : Type} (h : v.Ready job) {step : Voice → α → Voice} (value : Option α)
    (hstep : ∀ a v, Ready job v → (step v a).Ready job) : (v.withSome value step).Ready job := by
  cases value with
  | none => exact h
  | some a => exact hstep a v h

/-- The default curve is an entry. -/
theorem Ready.default (h : v.Ready job) :
    (Label.envelope Tables.defaultCurve).IsEntry v.tables :=
  .envelope h.backed.sound.default

/-! ## Tempo and attributes -/

theorem Ready.wantTempo (h : v.Ready job) (row : Row) (speed : Option UInt8) :
    (v.wantTempo job row speed).Ready job := by
  unfold Voice.wantTempo
  split
  · split
    · exact (h.clamped _ _ _ _).take rfl
    · exact h
  · refine Ready.logging ?_ _
    split
    · rename_i groove _
      have ht := Tables.extends_groove v.tables groove
      exact { h.extend ht with
        groove := fun _ => ⟨_, UniqueTable.find?_intern h.backed.indexed _ _⟩ }
    · exact h

theorem Ready.syncTempo (h : v.Ready job) : (v.syncTempo job).Ready job := by
  unfold Voice.syncTempo
  split
  · simp only
    split
    · exact h
    split
    · exact (h.issue .speed trivial).tell _
    · exact h.logging _
  · rename_i hmode
    simp only
    split
    · exact h
    split
    · obtain ⟨bytes, hbytes⟩ := h.groove hmode
      exact (h.issueAt _ (.groove hbytes)).tell _
    · exact h.logging _

theorem Ready.want (h : v.Ready job) (note : Note) : (v.want job note).Ready job := by
  have hvolume : ∀ a v, Ready job v → (v.wantVolume job a).Ready job := by
    intro a v h
    unfold wantVolume
    split
    · exact (h.clamped _ _ _ _).take rfl
    · exact h.logging _
  have hpitch : ∀ a v, Ready job v → (v.wantFinePitch job a).Ready job := by
    intro a v h
    unfold wantFinePitch
    split
    · exact h.take rfl
    · exact h.logging _
  have hvibrato : ∀ a v, Ready job v → (v.wantVibrato job a).Ready job := by
    intro a v h
    unfold wantVibrato
    split
    · exact h.take rfl
    · exact h.logging _
  have hduty : ∀ a v, Ready job v → (v.wantDuty job a).Ready job := by
    intro a v h
    unfold wantDuty
    split
    · exact (h.clamped _ _ _ _).take rfl
    · exact h.logging _
  have hspeed : ∀ a v, Ready job v → (v.wantFdsModSpeed a).Ready job := fun _ _ h =>
    (h.logging _).take rfl
  have hdepth : ∀ a v, Ready job v → (v.wantFdsModDepth a).Ready job := fun _ _ h =>
    (h.clamped _ _ _ _).take rfl
  have hfour := (((h.withSome note.volume hvolume).withSome note.finePitch hpitch).withSome
    note.vibrato hvibrato).withSome note.duty hduty
  unfold Voice.want
  simp only
  split
  · split
    · exact (hfour.withSome note.fdsModSpeed hspeed).withSome note.fdsModDepth hdepth
    · exact hfour.logging _
  · exact hfour

/-! ## Settings -/

theorem Ready.syncVolume (h : v.Ready job) : (v.syncVolume job).Ready job := by
  unfold Voice.syncVolume
  simp only
  split
  · exact h
  split
  · exact (h.issue .volume trivial).tell _
  · exact h.logging _

theorem Ready.syncFinePitch (h : v.Ready job) : (v.syncFinePitch job).Ready job := by
  unfold Voice.syncFinePitch
  simp only
  split
  · exact h
  split
  · exact (h.issue .finePitch trivial).tell _
  · exact h.logging _

theorem Ready.syncVibrato {v' : Voice} (h : v.Ready job) (hv : v.syncVibrato job = .ok v') :
    v'.Ready job := by
  cases syncVibrato_ok hv with
  | known => exact h
  | @starts setting index tables _ _ hcurve =>
    obtain ⟨ht, hindex⟩ := Tables.vibrato_ok hcurve
    have hready := h.extend ht
    obtain ⟨bytes, hbytes, -⟩ := hready.backed.sound.vibratos _ _ hindex
    exact (hready.issueAt _ (.envelope hbytes)).tell _
  | ends => exact ((h.issueAt _ h.default).issue .clearPitchOverride trivial).tell _
  | lacking => exact h.logging _

theorem Ready.syncDuty (h : v.Ready job) : (v.syncDuty job).Ready job := by
  refine h.withSome _ fun duty v h => ?_
  split
  · exact h
  split
  · exact (h.issue .duty trivial).tell _
  · exact h.logging _

theorem Ready.syncFdsModSpeed (h : v.Ready job) : (v.syncFdsModSpeed job).Ready job := by
  refine h.withSome _ fun speed v h => ?_
  split
  · exact h
  split
  · exact (h.issue .fdsModSpeed trivial).tell _
  · exact h.logging _

theorem Ready.syncFdsModDepth (h : v.Ready job) : (v.syncFdsModDepth job).Ready job := by
  refine h.withSome _ fun depth v h => ?_
  split
  · exact h
  split
  · exact (h.issue .fdsModDepth trivial).tell _
  · exact h.logging _

theorem Ready.syncContinuous {v' : Voice} (h : v.Ready job) (hv : v.syncContinuous job = .ok v') :
    v'.Ready job := by
  obtain ⟨u, hu, hv⟩ := bind_ok hv
  cases hv
  exact ((h.syncVolume.syncFinePitch.syncVibrato hu).syncDuty.syncFdsModSpeed).syncFdsModDepth

/-- An instrument is sent as its slot, which the kernel can name. -/
theorem Ready.syncInstrument {v' : Voice} {note : Note} {row : Nat} (hslots : job.slots.Bounded)
    (h : v.Ready job) (hv : v.syncInstrument job note row = .ok v') : v'.Ready job := by
  cases syncInstrument_ok hv with
  | noTable => exact h
  | noInstrument => exact h.take rfl
  | known => exact { h with }
  | @sent index slot instrument hpicks =>
    have hready : Stream.Ready job v.tables (.instrument slot) :=
      ⟨⟨_, if_pos (hslots index slot hpicks.slot)⟩, trivial, trivial⟩
    exact { h.emit hready with }

theorem Ready.syncArpeggio {v' : Voice} {note : Note} (h : v.Ready job)
    (hv : v.syncArpeggio job note = .ok v') : v'.Ready job := by
  cases syncArpeggio_ok hv with
  | unsupported => exact h.logging _
  | lacking => exact h.logging _
  | again => exact (h.issue .resetArp trivial).tell _
  | @starts index curve _ hcurve =>
    obtain ⟨bytes, hbytes⟩ := h.backed.arpeggios curve (List.mem_of_getElem? hcurve)
    exact (h.issueAt _ (.envelope hbytes)).tell _
  | unchanged => exact h
  | ends => exact ((h.issueAt _ h.default).issue .clearArpOverride trivial).tell _

/-! ## Notes -/

theorem Ready.delays (h : v.Ready job) (note : Note) : (v.delays job note).Ready job :=
  (h.withSome note.noteDelay fun _ _ h => h.issue .noteDelay trivial).withSome note.cutDelay
    fun _ _ h => h.issue .cutDelay trivial

/-- A note that does not fit one byte is sent as an operation. -/
theorem Ready.plainNote (h : v.Ready job) (value : UInt8) : (v.plainNote job value).Ready job := by
  unfold Voice.plainNote
  split
  · rename_i byte hbyte
    exact h.emit ⟨Instruction.encodes_note hbyte, trivial, trivial⟩
  · rename_i hbyte
    exact h.issue .extendedNote fun byte hmem => by rw [List.mem_singleton.1 hmem, hbyte]

theorem Ready.pitchedNote (h : v.Ready job) (row : Row) (rest : List Row) (note : Note)
    (value : UInt8) : (v.pitchedNote job row rest note value).Ready job := by
  have hclamped := h.clamped value noteMin noteMax "Note"
  unfold Voice.pitchedNote
  simp only
  split
  · exact hclamped.plainNote _
  · rename_i target _
    have htarget := hclamped.clamped target noteMin noteMax "Slide target"
    split
    · exact (htarget.logging _).plainNote _
    split
    · exact (htarget.logging _).plainNote _
    split
    · exact htarget.plainNote _
    · exact htarget.issue .slide trivial

/-- The number of a mapping that is in the window fits one byte. -/
theorem noteByte_mapping (k : Kernel) {index : Nat} (h : index < noteWindow.toNat) :
    ∃ byte, k.noteByte (UInt8.ofNat (index + 1) + noteBias) = some byte := by
  have hall : ∀ k ∈ Kernel.all, ∀ n < noteWindow.toNat,
      (k.noteByte (UInt8.ofNat (n + 1) + noteBias)).isSome = true := by decide +kernel
  exact Option.isSome_iff_exists.1 (hall k (by cases k <;> decide) index h)

theorem Ready.sampleNote {v' : Voice} {value : UInt8} {advances : Bool} (h : v.Ready job)
    (hv : v.sampleNote job value = .ok (v', advances)) : v'.Ready job := by
  cases sampleNote_ok hv with
  | ignored _ change => exact h.logging change
  | @plays index _ hlt =>
    obtain ⟨byte, hbyte⟩ := noteByte_mapping job.kernel hlt
    exact h.emit ⟨Instruction.encodes_note hbyte, trivial, trivial⟩

theorem ready_stop (t : Tables) : Stream.Ready job t (.note 0 false) := ⟨⟨_, rfl⟩, trivial, trivial⟩

theorem Ready.playValue {v' : Voice} {index : Nat} {row : Row} {rest : List Row} {note : Note}
    {advances : Bool} (hslots : job.slots.Bounded) (h : v.Ready job)
    (hv : v.playValue job index row rest note = .ok (v', advances)) : v'.Ready job := by
  cases playValue_ok hv with
  | sample _ _ hu hv => exact ((h.syncContinuous hu).delays note).sampleNote hv
  | pitch _ hc hu hw hx =>
    have hsettings := ((h.syncInstrument hslots hu).syncArpeggio hw).syncContinuous hx
    exact (hsettings.delays note).pitchedNote row rest note _
  | stop _ hu => exact ((h.syncContinuous hu).delays note).emit (ready_stop _)
  | release _ hk hu =>
    have hrelease : job.kernel.supports .release = true := by rw [hk]; rfl
    exact ((h.syncContinuous hu).delays note).emit (ready_op hrelease trivial)
  | ignored _ _ hu change => exact (h.syncContinuous hu).logging change
  | silent _ hu => exact h.syncContinuous hu

theorem Ready.deltaCounter (h : v.Ready job) (value : UInt8) :
    (v.deltaCounter job value).Ready job := by
  unfold Voice.deltaCounter
  split
  · exact h.logging _
  have hclamped := h.clamped value 0 maxDeltaCounter "Delta counter"
  simp only
  split
  · rename_i hk
    exact { hclamped with
      row := fun i hi => by
        rcases mem_insertBeforeNote hi with rfl | hi
        · exact ready_op hk trivial
        · exact hclamped.row i hi }
  · exact hclamped.logging _

theorem Ready.tempoOf (h : v.Ready job) (row : Row) (speed : Option UInt8) :
    (v.tempoOf job row speed).Ready job := by
  unfold Voice.tempoOf
  split
  · exact (h.wantTempo row speed).syncTempo
  · exact h.wantTempo row speed

/-- **A row sends what can be written.** -/
theorem ready_processRow {u : Voice} {index : Nat} {row : Row} {speed : Option UInt8}
    {rest : List Row} {advances : Bool} (hslots : job.slots.Bounded) (h : v.Ready job)
    (hv : v.processRow job index row speed rest = .ok (u, advances)) : u.Ready job := by
  have htempo := h.tempoOf row speed
  cases processRow_ok hv with
  | silent => exact htempo
  | @cell note x _ _ hresult =>
    exact ((htempo.want note).playValue hslots hresult).withSome _ fun value _ h =>
      h.deltaCounter value

end Voice

/-! ## Runs -/

theorem ready_marked {index : Nat} {v : Voice} (h : v.Ready job) :
    (marked job rows speeds loopAt index v).2.Ready job := by
  unfold marked
  split
  · exact { h.extend (Tables.extends_symbol _ _) with }
  · exact h

/-- Before the first row the groove is the one of the song. -/
theorem ready_opening {t : Tables} (h : t.Backs job.arpeggios) :
    (opening job rows t).Ready job := by
  refine Voice.Ready.logging (v := Voice.start job t) ?_ _
  have hrow : (Voice.start job t).row = [] := rfl
  have htables : t.Extends (Voice.start job t).tables := by
    unfold Voice.start
    cases job.project.tempoMode with
    | speed => exact .refl t
    | groove => exact Tables.extends_groove t _
  refine ⟨h.mono htables, fun hmode => ?_, by rw [hrow]; exact fun i hi => absurd hi (by simp)⟩
  have hstart : (Voice.start job t).wanted.groove = (t.groove job.song.groove).1 ∧
      (Voice.start job t).tables = (t.groove job.song.groove).2 := by
    unfold Voice.start
    simp only [hmode, and_self]
  rw [hstart.1, hstart.2]
  exact ⟨_, UniqueTable.find?_intern h.indexed _ _⟩

/-- **The rows of a run send what can be written.** -/
theorem Runs.ready (hslots : job.slots.Bounded) {index : Nat} {rest : List Row}
    {later : List (Option UInt8)} {v v' : Voice} {pieces : List Piece}
    (h : Runs job rows speeds loopAt index rest later v pieces v')
    (hrow : v.row = []) (hv : v.Ready job) :
    v'.Ready job ∧
      ∀ is advances, .row is advances ∈ pieces → ∀ i ∈ is, Ready job v'.tables i := by
  induction h with
  | nil => exact ⟨hv, by simp⟩
  | @cons index row rest later v u v' advances more hstep hrest ih =>
    have hu := Voice.ready_processRow hslots (ready_marked hv) hstep
    have hnext : Voice.Ready job { u with row := [] } := { hu with row := by simp }
    obtain ⟨hv', hmore⟩ := ih rfl hnext
    refine ⟨hv', fun is adv hmem i hi => ?_⟩
    rcases mem_marked_row hmem with ⟨rfl, rfl⟩ | hmem
    · exact { hu.row i hi with
        leads := (hu.row i hi).leads.mono (hrest.tables rfl) hu.backed.indexed }
    · exact hmore is adv hmem i hi

/-! ## Streams -/

/-- Runs of empty rows are as long as the kernel can write them. -/
theorem encodes_emptyRuns (k : Kernel) (count : Nat) :
    ∀ i ∈ emptyRuns k count, i.Encodes k := by
  have hmax : 1 ≤ k.maxEmptyRows := by cases k <;> decide
  have hrun : ∀ n, 1 ≤ n → n ≤ k.maxEmptyRows → (Instruction.emptyRows n).Encodes k :=
    fun n hpos hle => ⟨_, if_pos ⟨hpos, hle⟩⟩
  intro i hi
  rcases List.mem_append.1 hi with hi | hi
  · rw [List.eq_of_mem_replicate hi]
    exact hrun _ hmax (Nat.le_refl _)
  · split at hi
    · exact absurd hi List.not_mem_nil
    · rw [List.mem_singleton.1 hi]
      have := Nat.mod_lt count hmax
      exact hrun _ (by omega) (by omega)

/-- A note that fits one byte also fits with an empty row, where the kernel packs them. -/
theorem encodes_packed {k : Kernel} {value : UInt8}
    (h : (Instruction.note value false).Encodes k) (hk : k.packsEmptyRows = true) :
    (Instruction.note value true).Encodes k := by
  obtain ⟨tokens, htokens⟩ := h
  simp only [Instruction.Encodes, Instruction.encode, hk, Bool.not_true, Bool.and_false,
    Bool.false_eq_true, if_false] at htokens ⊢
  split
  · exact ⟨_, rfl⟩
  rename_i hz
  cases hbyte : k.noteByte value with
  | some byte => exact ⟨_, rfl⟩
  | none =>
    simp only [hz, hbyte, if_false, reduceCtorEq] at htokens

theorem encodes_flush {k : Kernel} {p : Pending}
    (hp : ∀ value ∈ p.note, (Instruction.note value false).Encodes k) :
    ∀ i ∈ flush k p, i.Encodes k := by
  intro i hi
  unfold flush at hi
  split at hi
  · rename_i value hnote
    have hvalue := hp value hnote
    split at hi
    · rename_i hpacked
      rw [List.mem_singleton.1 hi]
      exact encodes_packed hvalue (Bool.and_eq_true_iff.1 hpacked).1
    · rcases List.mem_cons.1 hi with rfl | hi
      · exact hvalue
      · exact encodes_emptyRuns k _ i hi
  · exact encodes_emptyRuns k _ i hi

/-- **Joining rows adds only what can be encoded**: runs of empty rows, packed notes and labels. -/
theorem encodes_join {k : Kernel} {pieces : List Piece} {p : Pending}
    (hp : ∀ value ∈ p.note, (Instruction.note value false).Encodes k)
    (hrow : ∀ is advances, .row is advances ∈ pieces → ∀ i ∈ is, i.Encodes k) :
    ∀ i ∈ join k p pieces, i.Encodes k := by
  induction pieces generalizing p with
  | nil => exact encodes_flush hp
  | cons piece rest ih =>
    have hrest : ∀ is advances, .row is advances ∈ rest → ∀ i ∈ is, i.Encodes k :=
      fun is advances hmem => hrow is advances (List.mem_cons_of_mem _ hmem)
    cases piece with
    | mark id =>
      intro i hi
      rcases List.mem_append.1 hi with hi | hi
      · exact encodes_flush hp i hi
      rcases List.mem_cons.1 hi with rfl | hi
      · exact ⟨_, rfl⟩
      · exact ih (fun _ hvalue => by cases hvalue) hrest i hi
    | row is advances =>
      have his := hrow is advances List.mem_cons_self
      unfold join
      simp only
      split
      · exact ih hp hrest
      · have hheld := holdNote_eq is
        have hnote : ∀ value ∈ (holdNote is).2, (Instruction.note value false).Encodes k := by
          intro value hvalue
          refine his _ (hheld ▸ List.mem_append_right _ ?_)
          exact List.mem_map_of_mem (Option.mem_toList.2 hvalue)
        intro i hi
        rcases List.mem_append.1 hi with hi | hi
        · rcases List.mem_append.1 hi with hi | hi
          · exact encodes_flush hp i hi
          · exact his i (hheld ▸ List.mem_append_left _ hi)
        · exact ih hnote hrest i hi

theorem encodeAll_succeeds {k : Kernel} {is : List Instruction} (h : ∀ i ∈ is, i.Encodes k) :
    ∃ tokens, Instruction.encodeAll k is = .ok tokens := by
  induction is with
  | nil => exact ⟨[], rfl⟩
  | cons i rest ih =>
    obtain ⟨first, hfirst⟩ := h i List.mem_cons_self
    obtain ⟨others, hothers⟩ := ih fun j hj => h j (List.mem_cons_of_mem _ hj)
    exact ⟨first ++ others, by rw [Instruction.encodeAll, hfirst, hothers]; rfl⟩

/-- **The stream of a run has tokens**: no instruction of it is without an encoding. -/
theorem Runs.encodes (hslots : job.slots.Bounded) {index : Nat} {rest : List Row}
    {later : List (Option UInt8)} {v v' : Voice} {pieces : List Piece}
    (h : Runs job rows speeds loopAt index rest later v pieces v')
    (hrow : v.row = []) (hv : v.Ready job) : ∃ tokens, Instruction.encodeAll job.kernel
      (join job.kernel {} pieces ++ [lastInstruction job loopAt v']) = .ok tokens := by
  obtain ⟨-, hready⟩ := h.ready hslots hrow hv
  have hjoin := encodes_join (k := job.kernel) (p := {}) (fun _ hvalue => by cases hvalue)
    fun is advances hmem i hi => (hready is advances hmem i hi).encodes
  refine encodeAll_succeeds fun i hi => ?_
  rcases List.mem_append.1 hi with hi | hi
  · exact hjoin i hi
  · rw [List.mem_singleton.1 hi]
    unfold lastInstruction
    split
    · exact Instruction.encodes_op (by cases job.kernel <;> rfl) _ _
    · exact Instruction.encodes_op (by cases job.kernel <;> rfl) _ _

/-- **No note of a stream is longer than it has to be.** -/
theorem generate_shortest (hslots : job.slots.Bounded) {t t' : Tables} {tokens : List Token}
    (hb : t.Backs job.arpeggios) (h : generate job t = (.ok tokens, t')) :
    ∀ i ∈ disassemble job.kernel tokens, i.IsShortest job.kernel := by
  obtain ⟨rows, speeds, loopAt, pieces, v, -, -, -, hruns, htokens, -⟩ := generate_ok h
  obtain ⟨-, hready⟩ := hruns.ready hslots rfl (ready_opening hb)
  rw [disassemble_encodeAll (hruns.hasOperands rfl v) htokens]
  intro i hi
  rcases List.mem_append.1 hi with hi | hi
  · exact forall_join job.kernel (fun _ _ => trivial) (fun _ => trivial) (fun _ _ => trivial)
      (fun is advances hmem i hi => (hready is advances hmem i hi).shortest) {} i hi
  · rw [List.mem_singleton.1 hi]
    unfold lastInstruction
    split <;> exact trivial

/-- An address in a stream is one of its instructions. -/
theorem exists_op_of_address {k : Kernel} {is : List Instruction} {tokens : List Token}
    {target : Target} (hi : ∀ i ∈ is, i.HasOperands)
    (h : Instruction.encodeAll k is = .ok tokens) (hmem : .address target ∈ tokens) :
    ∃ o bytes targets, .op o bytes targets ∈ is ∧ target ∈ targets := by
  obtain ⟨i, his, ts, hts, ht⟩ := Instruction.mem_encodeAll h hmem
  rcases Instruction.encode_ok (hi i his) hts with
    ⟨id, rfl, rfl⟩ | ⟨lead, bytes, targets, rfl, hoperands, hinstruction⟩
  · cases List.mem_singleton.1 ht
  have hlead : ∀ b : Bool, Token.address target ≠ if b then Token.note lead else .opcode lead := by
    intro b
    cases b <;> exact Token.noConfusion
  have htarget : target ∈ targets := by
    rcases List.mem_cons.1 ht with heq | ht
    · exact absurd heq (hlead _)
    · simpa using ht
  -- only operations have addresses
  cases hdecode : k.decode lead with
  | op o =>
    simp only [hdecode, Lead.instruction, Option.some.injEq] at hinstruction
    subst hinstruction
    exact ⟨o, bytes, targets, his, htarget⟩
  | invalid =>
    rw [hdecode] at hoperands
    cases hoperands
  | _ =>
    simp only [hdecode, Lead.operands, Option.some.injEq, Prod.mk.injEq] at hoperands
    rw [List.length_eq_zero_iff.1 hoperands.2.symm] at htarget
    exact absurd htarget List.not_mem_nil

/-- The labels of a sequence of instructions are in its tokens. -/
theorem label_mem_encodeAll {k : Kernel} {is : List Instruction} {tokens : List Token} {id : Nat}
    (h : Instruction.encodeAll k is = .ok tokens) (hid : .label id ∈ is) :
    .label id ∈ tokens := by
  induction is generalizing tokens with
  | nil => exact absurd hid List.not_mem_nil
  | cons i rest ih =>
    obtain ⟨first, others, hfirst, hothers, rfl⟩ := encodeAll_cons_ok h
    rcases List.mem_cons.1 hid with rfl | hid
    · cases hfirst
      exact List.mem_cons_self
    · exact List.mem_append_right _ (ih hothers hid)

/-- A jump at the end of a stream goes to a label of the stream. -/
theorem Returns.label_mem {body : List Instruction} {loopAt : Option Nat} {bytes : List UInt8}
    {targets : List Target} (h : Returns (body ++ [.op .jump bytes targets]) loopAt) :
    ∃ id, targets = [.symbol id] ∧ .label id ∈ body := by
  generalize his : body ++ [.op .jump bytes targets] = is at h
  cases h with
  | halts unlabelled =>
    obtain ⟨-, hlast⟩ := List.append_inj' his rfl
    cases hlast
  | @jumps before loop id unlabelled single =>
    rw [← List.cons_append, ← List.append_assoc] at his
    obtain ⟨rfl, hlast⟩ := List.append_inj' his rfl
    cases hlast
    exact ⟨id, rfl, List.mem_append_right _ List.mem_cons_self⟩

/-- **Every address of a stream names an entry**, but for the one of the jump at its end, which
names the loop label of the stream. -/
theorem generate_leads (hslots : job.slots.Bounded) {t t' : Tables} {tokens : List Token}
    (hb : t.Backs job.arpeggios) (h : generate job t = (.ok tokens, t')) {target : Target}
    (ht : .address target ∈ tokens) :
    target.Leads job.stem t' ∨ ∃ id, target = .symbol id ∧ .label id ∈ tokens := by
  have hreturns := (generate_returns h).2
  obtain ⟨rows, speeds, loopAt, pieces, v, -, -, -, hruns, htokens, rfl⟩ := generate_ok h
  have hoperands := hruns.hasOperands rfl v
  rw [disassemble_encodeAll hoperands htokens] at hreturns
  obtain ⟨hv, hready⟩ := hruns.ready hslots rfl (ready_opening hb)
  obtain ⟨o, bytes, targets, hop, htarget⟩ := exists_op_of_address hoperands htokens ht
  rcases List.mem_append.1 hop with hop | hop
  · have hleads := forall_join (P := fun i => i.Leads job.stem v.tables) job.kernel
      (fun _ _ => trivial) (fun _ => trivial) (fun _ _ => trivial)
      (fun is advances hmem i hi => (hready is advances hmem i hi).leads) {} _ hop
    exact .inl ((hleads target htarget).mono (extends_ending v) hv.backed.indexed)
  · have hlast := (List.mem_singleton.1 hop).symm
    cases loopAt with
    | none =>
      cases hlast
      exact absurd htarget List.not_mem_nil
    | some loop =>
      cases hlast
      obtain ⟨id, htargets, hid⟩ := Returns.label_mem hreturns
      rw [htargets] at htarget
      exact .inr ⟨id, List.mem_singleton.1 htarget,
        label_mem_encodeAll htokens (List.mem_append_left _ hid)⟩

end Stream

end Chiptune
