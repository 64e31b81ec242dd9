import Chiptune.Proofs.Asides
import Chiptune.Proofs.Events

/-!
# The tempo of a row

`Pace` is the tempo of a driver that reads a stream, `Tempo` the tempo that a song asks for. A row
first takes its tempo (`Tempo.take`) and sends it if the driver was told another one, and no other
step of the row has to do with it; a slide is computed for the speed of its row (`IsSlide`).

* `Voice.timed_processRow`: **a row is played at the tempo that the song asks for**.
-/

set_option autoImplicit false

namespace Chiptune

/-! ## Drivers -/

/-- Whether an instruction sets the tempo. -/
def Instruction.setsTempo : Instruction → Bool
  | .op .speed .. | .op .groove .. => true
  | _ => false

/-- Itself, for an instruction that sets the tempo or depends on it. -/
def Instruction.paced (i : Instruction) : List Instruction :=
  match i with
  | .op .speed .. | .op .groove .. | .op .slide .. => [i]
  | _ => []

/-- Tempo of a driver. -/
structure Pace where
  speed : UInt8
  /-- Groove that was selected last; before any it is the one of the song record. -/
  groove : Option Target := none

namespace Pace

/-- Tempo behind an instruction. -/
def exec (p : Pace) : Instruction → Pace
  | .op .speed [speed] _ => { p with speed }
  | .op .groove _ [target] => { p with groove := some target }
  | _ => p

/-- Tempo behind what is sent for a row. -/
def after (p : Pace) (sent : List Instruction) : Pace := sent.foldl exec p

/-- What is sent for each row, and the tempo at which the row is played. -/
def rows (p : Pace) : List (List Instruction) → List (List Instruction × Pace)
  | [] => []
  | sent :: rest => (sent, p.after sent) :: (p.after sent).rows rest

theorem after_append (p : Pace) (is js : List Instruction) :
    p.after (is ++ js) = (p.after is).after js :=
  List.foldl_append

/-- What sets no tempo makes no difference. -/
theorem after_of_not_setsTempo (p : Pace) {is : List Instruction}
    (h : ∀ i ∈ is, i.setsTempo = false) : p.after is = p := by
  have hexec : ∀ i : Instruction, i.setsTempo = false → p.exec i = p := by
    intro i hi
    unfold exec
    split
    · cases hi
    · cases hi
    · rfl
  induction is with
  | nil => rfl
  | cons i is ih =>
    rw [after, List.foldl_cons, hexec i (h i List.mem_cons_self)]
    exact ih fun j hj => h j (List.mem_cons_of_mem _ hj)

/-- The groove of an index plays; without a selected groove that is the `first` one. -/
def Plays (p : Pace) (stem : String) (t : Tables) (first groove : Nat) : Prop :=
  match p.groove with
  | none => groove = first
  | some target => ∃ id, target = .symbol id ∧
      t.symbols.name? id = some ((Label.groove groove).text stem)

theorem rows_append (p : Pace) (xs ys : List (List Instruction)) :
    p.rows (xs ++ ys) = p.rows xs ++ (xs.foldl after p).rows ys := by
  induction xs generalizing p with
  | nil => rfl
  | cons x xs ih => exact congrArg (_ :: ·) (ih _)

end Pace

namespace Song

/-- Groove that starts on a row. -/
def rowGroove (s : Song) (row : Row) : Option (List UInt8) :=
  if row.isFirst then s.positionGroove row.position else none

end Song

namespace Stream

variable {job : Job} {t : Tables} {first : Nat} {p : Pace}

/-! ## Songs -/

/-- The nearest speed that a driver can play. -/
def playableSpeed (speed : UInt8) : UInt8 := max 1 (min 31 speed)

/-- Tempo that a song asks for. -/
structure Tempo where
  speed : UInt8
  groove : List UInt8

/-- Tempo before the first row. -/
def Tempo.start (song : Song) : Tempo := ⟨song.speed, song.groove⟩

/-- Tempo that a song asks for from a row on. -/
def Tempo.take (job : Job) (row : Row) (speed : Option UInt8) (tempo : Tempo) : Tempo :=
  match job.project.tempoMode with
  | .speed => { tempo with speed := (speed.map playableSpeed).getD tempo.speed }
  | .groove => { tempo with groove := (job.song.rowGroove row).getD tempo.groove }

/-- Step of a slide at a speed, from a row to the next note among the rows behind it. -/
def Job.slideStep (job : Job) (speed : UInt8) (row : Row) (rest : List Row)
    (source target : UInt8) : Int8 :=
  let count := Float.ofNat (Voice.rowsToNext rest)
  let frames (machine : Machine) : Float :=
    count * framesPerRow job.song speed job.project.tempoMode machine row.position
  Chiptune.slideStep job.channel.pitchProfile job.machine source target (frames .ntsc) (frames .pal)

/-- A slide on a row, computed for a speed. -/
def IsSlide (job : Job) (speed : UInt8) (row : Row) (rest : List Row) (i : Instruction) : Prop :=
  ∃ source target,
    i = .op .slide [(job.slideStep speed row rest source target).toUInt8, source, target] []

theorem IsSlide.setsTempo {speed : UInt8} {row : Row} {rest : List Row} {i : Instruction}
    (h : IsSlide job speed row rest i) : i.setsTempo = false := by
  obtain ⟨source, target, rfl⟩ := h
  rfl

namespace Voice

/-- Instructions of the current row that set the tempo or depend on it. -/
def paced (v : Voice) : List Instruction := v.row.flatMap Instruction.paced

/-! ## Behind the tempo of a row -/

/-- A step that leaves the tempo alone, and sends nothing that depends on it but slides. -/
structure Slides (job : Job) (row : Row) (rest : List Row) (v v' : Voice) : Prop where
  speed : v'.course.speed = v.course.speed
  groove : v'.course.groove = v.course.groove
  paced : ∃ slides, v'.paced = v.paced ++ slides ∧
    ∀ i ∈ slides, IsSlide job v.wanted.speed row rest i

section

variable {row : Row} {rest : List Row} {v v' v'' : Voice}

theorem Slides.trans (h : v.Slides job row rest v') (h' : v'.Slides job row rest v'') :
    v.Slides job row rest v'' := by
  obtain ⟨is, his, hslides⟩ := h.paced
  obtain ⟨js, hjs, hslides'⟩ := h'.paced
  have hspeed : v'.wanted.speed = v.wanted.speed := congrArg Prod.snd h.speed
  rw [hspeed] at hslides'
  refine ⟨h'.speed.trans h.speed, h'.groove.trans h.groove, is ++ js,
    by rw [hjs, his, List.append_assoc], ?_⟩
  intro i hi
  rcases List.mem_append.1 hi with hi | hi
  · exact hslides i hi
  · exact hslides' i hi

theorem paced_of_isAside {i : Instruction} (h : i.isAside = true) : i.paced = [] := by
  cases i with
  | op o bytes addresses => cases o <;> first | rfl | cases h
  | note => rfl
  | _ => cases h

theorem Aside.slides (h : v.Aside v') : v.Slides job row rest v' where
  speed := congrArg Course.speed h.course
  groove := congrArg Course.groove h.course
  paced := ⟨[], by simpa [Voice.paced] using h.row Instruction.paced fun _ => paced_of_isAside,
    by simp⟩

theorem slides_syncInstrument {note : Note} {index : Nat}
    (h : v.syncInstrument job note index = .ok v') : v.Slides job row rest v' := by
  cases syncInstrument_ok h with
  | noTable => exact (Aside.refl _).slides
  | noInstrument => exact ⟨rfl, rfl, [], by simp [paced], by simp⟩
  | known => exact ⟨rfl, rfl, [], by simp [paced, picked], by simp⟩
  | sent => exact ⟨rfl, rfl, [], by simp [paced, picked, emit, Instruction.paced], by simp⟩

/-- The step of a slide depends on the speed that the song asks for. -/
theorem slideStepAt_eq (v : Voice) (source target : UInt8) :
    v.slideStepAt job row rest source target =
      job.slideStep v.wanted.speed row rest source target := rfl

theorem slides_pitchedNote (v : Voice) (note : Note) (value : UInt8) :
    v.Slides job row rest (v.pitchedNote job row rest note value) := by
  have hplain : ∀ (v : Voice) value, v.Slides job row rest (v.plainNote job value) :=
    fun v value => (aside_plainNote v value).slides
  unfold pitchedNote
  simp only
  refine (aside_clamped v value noteMin noteMax "Note").slides.trans ?_
  split
  · exact hplain _ _
  · rename_i target _
    refine (aside_clamped _ target noteMin noteMax "Slide target").slides.trans ?_
    split
    · exact (aside_unsupported _ _).slides.trans (hplain _ _)
    split
    · exact (aside_lacking _ _).slides.trans (hplain _ _)
    split
    · exact hplain _ _
    · rename_i hsupports _
      rw [issue, if_pos (by simpa using hsupports), slideStepAt_eq]
      refine ⟨rfl, rfl, _, by simp [paced, emit, Instruction.paced]; rfl, ?_⟩
      intro i hi
      exact ⟨_, _, List.mem_singleton.1 hi⟩

theorem slides_playValue {index : Nat} {note : Note} {advances : Bool}
    (h : v.playValue job index row rest note = .ok (v', advances)) :
    v.Slides job row rest v' := by
  cases playValue_ok h with
  | sample _ _ hu h =>
    exact (((aside_syncContinuous hu).trans (aside_delays _ note)).trans
      (aside_sampleNote h)).slides
  | @pitch value u w x _ _ hu hw hx =>
    have haside : u.Aside (x.delays job note) :=
      ((aside_syncArpeggio hw).trans (aside_syncContinuous hx)).trans (aside_delays x note)
    exact ((slides_syncInstrument hu).trans haside.slides).trans (slides_pitchedNote _ note value)
  | @stop u _ hu =>
    have haside : v.Aside ((u.delays job note).emit (.note 0 false)) :=
      ((aside_syncContinuous hu).trans (aside_delays u note)).trans (aside_emit _ rfl)
    exact haside.slides
  | @release u _ _ hu =>
    have haside : v.Aside ((u.delays job note).emit (.op .release [] [])) :=
      ((aside_syncContinuous hu).trans (aside_delays u note)).trans (aside_emit _ rfl)
    exact haside.slides
  | ignored _ _ hu change =>
    exact ((aside_syncContinuous hu).trans (aside_logging _ change)).slides
  | silent _ hu => exact (aside_syncContinuous hu).slides

theorem extends_deltaCounter (v : Voice) (value : UInt8) :
    v.tables.Extends (v.deltaCounter job value).tables := by
  unfold deltaCounter
  split
  · exact (sends_unsupported v _).tables
  have hclamped := sends_clamped v value 0 maxDeltaCounter "Delta counter"
  simp only
  split
  · exact hclamped.tables
  · exact (hclamped.trans (sends_lacking _ _)).tables

/-- **Behind its tempo a row has nothing to do with the tempo any more.** -/
theorem slides_processRow {index : Nat} {speed : Option UInt8} {advances : Bool}
    (h : v.processRow job index row speed rest = .ok (v', advances)) :
    (v.tempoOf job row speed).Slides job row rest v' ∧
      (v.tempoOf job row speed).tables.Extends v'.tables := by
  cases processRow_ok h with
  | silent hnote => exact ⟨(Aside.refl _).slides, .refl _⟩
  | @cell note x _ hnote hresult =>
    have hcounter : x.Aside (x.withSome note.deltaCounter (deltaCounter · job)) :=
      .withSome aside_deltaCounter note.deltaCounter
    refine ⟨((aside_want _ note).slides.trans (slides_playValue hresult)).trans hcounter.slides,
      ((sends_want _ note).tables.trans (plays_playValue hnote hresult).tables).trans ?_⟩
    cases note.deltaCounter with
    | none => exact .refl _
    | some value => exact extends_deltaCounter x value

end

end Voice

/-! ## The tempo of a row -/

/-- A driver has the tempo that it was told; a kernel without grooves plays the first one. -/
structure InTime (job : Job) (t : Tables) (first : Nat) (told : Told) (p : Pace) : Prop where
  speed : job.project.tempoMode = .speed → ∀ speed ∈ told.speed, p.speed = speed
  groove : ∀ groove ∈ told.groove, p.Plays job.stem t first groove
  lacking : job.kernel.supports .groove = false → p.groove = none

/-- The voice wants the tempo that the song asks for. -/
structure Voice.Asks (job : Job) (tempo : Tempo) (v : Voice) : Prop where
  speed : v.wanted.speed = tempo.speed
  groove : job.project.tempoMode = .groove → v.tables.grooves.Indexed ∧
    v.tables.grooves.find? (Tables.grooveBytes tempo.groove) 0 = some v.wanted.groove

/-- **A row is played at the tempo that the song asks for**, by the channel that carries the tempo,
and its slides are computed for it, on every channel. -/
structure Timed (job : Job) (t : Tables) (first : Nat) (tempo : Tempo) (row : Row)
    (rest : List Row) (sent : List Instruction) (p : Pace) : Prop where
  speed : job.carriesTempo = true → job.project.tempoMode = .speed → p.speed = tempo.speed
  groove : job.carriesTempo = true → job.project.tempoMode = .groove →
    job.kernel.supports .groove = true → ∃ groove, p.Plays job.stem t first groove ∧
      t.grooves.get? groove = some (Tables.grooveBytes tempo.groove)
  lacking : job.kernel.supports .groove = false → p.groove = none
  slide : ∀ i ∈ sent, i.setsTempo = false → IsSlide job tempo.speed row rest i

namespace Voice

variable {tempo : Tempo} {row : Row} {rest : List Row} {speed : Option UInt8} {v v' : Voice}

theorem Asks.mono (h : v.Asks job tempo) (ht : v.tables.Extends v'.tables)
    (hs : v'.wanted.speed = v.wanted.speed) (hg : v'.wanted.groove = v.wanted.groove) :
    v'.Asks job tempo where
  speed := hs.trans h.speed
  groove hmode := by
    obtain ⟨hindexed, hfound⟩ := h.groove hmode
    exact ⟨ht.grooves.indexed hindexed, hg ▸ ht.grooves.find? hindexed _ _ _ hfound⟩

theorem asks_wantTempo (h : v.Asks job tempo) :
    (v.wantTempo job row speed).Asks job (tempo.take job row speed) := by
  unfold wantTempo Tempo.take
  cases hmode : job.project.tempoMode with
  | speed =>
    have hgroove : job.project.tempoMode = .groove → False := by rw [hmode]; rintro ⟨⟩
    cases speed with
    | none => exact ⟨h.speed, fun hm => (hgroove hm).elim⟩
    | some speed =>
      exact ⟨clamped_eq v (by decide) "Speed", fun hm => (hgroove hm).elim⟩
  | groove =>
    obtain ⟨hindexed, hfound⟩ := h.groove hmode
    have hrow : (if row.isFirst then job.song.positionGroove row.position else none) =
        job.song.rowGroove row := rfl
    simp only [hrow]
    cases job.song.rowGroove row with
    | none => exact ⟨h.speed, fun _ => ⟨hindexed, hfound⟩⟩
    | some groove =>
      exact ⟨h.speed, fun _ => ⟨(v.tables.extends_groove groove).grooves.indexed hindexed,
        UniqueTable.find?_intern hindexed _ 0⟩⟩

theorem paced_wantTempo (v : Voice) (job : Job) (row : Row) (speed : Option UInt8) :
    (v.wantTempo job row speed).paced = v.paced ∧ (v.wantTempo job row speed).told = v.told := by
  unfold wantTempo
  split
  · split <;> exact ⟨rfl, rfl⟩
  · simp only
    split <;> exact ⟨rfl, rfl⟩

theorem wanted_syncTempo (v : Voice) (job : Job) : (v.syncTempo job).wanted = v.wanted := by
  unfold syncTempo
  split
  · simp only
    split
    · rfl
    split
    · simp only [issue]
      split <;> rfl
    · rfl
  · simp only
    split
    · rfl
    split
    · simp only [issueAt]
      split <;> rfl
    · rfl

/-- What sends the tempo: behind it the driver has the wanted one, if the kernel can play it. -/
structure Sets (job : Job) (t : Tables) (first : Nat) (p : Pace) (v v' : Voice) : Prop where
  paced : ∃ sent, v'.paced = v.paced ++ sent ∧ (∀ i ∈ sent, i.setsTempo = true) ∧
    InTime job t first v'.told (p.after sent)
  speed : job.carriesTempo = true → job.project.tempoMode = .speed →
    v'.told.speed = some v'.wanted.speed
  groove : job.carriesTempo = true → job.project.tempoMode = .groove →
    job.kernel.supports .groove = true → v'.told.groove = some v'.wanted.groove

theorem sets_syncTempo (hp : InTime job t first v.told p)
    (ht : (v.syncTempo job).tables.Extends t) : v.Sets job t first p (v.syncTempo job) := by
  have hnothing : ∀ w : Voice, w.paced = v.paced → w.told = v.told →
      ∃ sent, w.paced = v.paced ++ sent ∧ (∀ i ∈ sent, i.setsTempo = true) ∧
        InTime job t first w.told (p.after sent) :=
    fun w hpaced htold => ⟨[], by simp [hpaced], by simp, by rw [htold]; exact hp⟩
  unfold syncTempo at ht ⊢
  cases hmode : job.project.tempoMode with
  | speed =>
    have hgroove : job.project.tempoMode = .groove → False := by rw [hmode]; rintro ⟨⟩
    have hsupports : job.kernel.supports .speed = true := by cases job.kernel <;> rfl
    simp only [hsupports, if_true]
    split
    · rename_i htold
      exact ⟨hnothing v rfl rfl, fun _ _ => htold, fun _ hm => (hgroove hm).elim⟩
    · rw [issue, if_pos hsupports]
      refine ⟨⟨[.op .speed [v.wanted.speed] []], by simp [Voice.paced, emit, Instruction.paced],
        by simp [Instruction.setsTempo], ?_⟩, fun _ _ => rfl, fun _ hm => (hgroove hm).elim⟩
      exact ⟨by rintro - _ ⟨⟩; rfl, hp.groove, hp.lacking⟩
  | groove =>
    have hspeed : job.project.tempoMode = .speed → False := by rw [hmode]; rintro ⟨⟩
    simp only [hmode] at ht ⊢
    split
    · rename_i htold
      exact ⟨hnothing v rfl rfl, fun _ hm => (hspeed hm).elim, fun _ _ _ => htold⟩
    split
    · rename_i htold hsupports
      rw [if_neg htold, if_pos hsupports, issueAt, if_pos hsupports] at ht
      rw [issueAt, if_pos hsupports]
      -- the operand is the number of the label of the wanted groove
      have hname := ht.name? (v.tables.name?_symbol ((Label.groove v.wanted.groove).text job.stem))
      refine ⟨⟨[_], by simp [Voice.paced, emit, Instruction.paced]; rfl,
        by simp [Instruction.setsTempo], ?_⟩, fun _ hm => (hspeed hm).elim, fun _ _ _ => rfl⟩
      refine ⟨hp.speed, ?_, fun hlacks => by rw [hsupports] at hlacks; cases hlacks⟩
      rintro _ ⟨⟩
      exact ⟨_, rfl, hname⟩
    · rename_i hsupports
      exact ⟨hnothing _ rfl rfl, fun _ hm => (hspeed hm).elim, fun _ _ h => absurd h hsupports⟩

theorem sets_tempoOf (hp : InTime job t first v.told p)
    (ht : (v.tempoOf job row speed).tables.Extends t) :
    v.Sets job t first p (v.tempoOf job row speed) := by
  obtain ⟨hpaced, htold⟩ := v.paced_wantTempo job row speed
  unfold tempoOf at ht ⊢
  cases hc : job.carriesTempo with
  | false =>
    simp only [Bool.false_eq_true, if_false]
    have hnot : job.carriesTempo = true → False := by rw [hc]; rintro ⟨⟩
    exact ⟨⟨[], by simp [hpaced], by simp, by rw [htold]; exact hp⟩, fun h => (hnot h).elim,
      fun h => (hnot h).elim⟩
  | true =>
    simp only [hc, if_true] at ht ⊢
    obtain ⟨hsent, hspeed, hgroove⟩ := sets_syncTempo (by rw [htold]; exact hp) ht
    rw [hpaced] at hsent
    exact ⟨hsent, hspeed, hgroove⟩

theorem asks_tempoOf (h : v.Asks job tempo) :
    (v.tempoOf job row speed).Asks job (tempo.take job row speed) := by
  have hwant : (v.wantTempo job row speed).Asks job (tempo.take job row speed) := asks_wantTempo h
  unfold tempoOf
  split
  · have hsame := (v.wantTempo job row speed).wanted_syncTempo job
    exact hwant.mono (sends_syncTempo _).tables (by rw [hsame]) (by rw [hsame])
  · exact hwant

theorem asks_processRow {index : Nat} {advances : Bool}
    (h : v.processRow job index row speed rest = .ok (v', advances)) (hasks : v.Asks job tempo) :
    v'.Asks job (tempo.take job row speed) := by
  obtain ⟨hslides, hextends⟩ := slides_processRow h
  exact (asks_tempoOf hasks).mono hextends (congrArg Prod.snd hslides.speed)
    (congrArg Prod.snd hslides.groove)

/-- **One row is played at the tempo that the song asks for**, and behind it the driver has what it
was told. -/
theorem timed_processRow {index : Nat} {advances : Bool} (hv : v.row = [])
    (h : v.processRow job index row speed rest = .ok (v', advances)) (ht : v'.tables.Extends t)
    (hasks : v.Asks job tempo) (hp : InTime job t first v.told p) :
    Timed job t first (tempo.take job row speed) row rest v'.paced (p.after v'.paced) ∧
      InTime job t first v'.told (p.after v'.paced) := by
  have hasked := asks_processRow h hasks
  have hspeed' : (v.tempoOf job row speed).wanted.speed = (tempo.take job row speed).speed :=
    (asks_tempoOf hasks).speed
  obtain ⟨hslides, hextends⟩ := slides_processRow h
  obtain ⟨⟨sent, hsent, hsets, hin⟩, hspeed, hgroove⟩ := sets_tempoOf hp (hextends.trans ht)
  generalize v.tempoOf job row speed = w at *
  obtain ⟨hcourse, hcourse', slides, hpaced, hslide⟩ := hslides
  simp only [course, Prod.mk.injEq] at hcourse hcourse'
  rw [hspeed'] at hslide
  have hempty : v.paced = [] := by rw [paced, hv]; rfl
  rw [hsent, hempty, List.nil_append] at hpaced
  -- the slides behind the tempo do not change it
  have hafter : p.after v'.paced = p.after sent := by
    rw [hpaced, Pace.after_append,
      Pace.after_of_not_setsTempo _ fun i hi => (hslide i hi).setsTempo]
  rw [hafter, hpaced]
  refine ⟨⟨fun hc hm => ?_, fun hc hm hk => ?_, hin.lacking, fun i hi hnot => ?_⟩,
    hcourse.1 ▸ hin.speed, hcourse'.1 ▸ hin.groove, hin.lacking⟩
  · exact (hin.speed hm _ (hspeed hc hm)).trans hspeed'
  · obtain ⟨hindexed, hfound⟩ := hasked.groove hm
    have hindex : w.wanted.groove = v'.wanted.groove := hcourse'.2.symm
    exact ⟨_, hin.groove _ (hgroove hc hm hk), UniqueTable.get?_of_find?
      (hindex ▸ ht.grooves.find? hindexed _ _ _ hfound)⟩
  · rcases List.mem_append.1 hi with hi | hi
    · rw [hsets i hi] at hnot
      cases hnot
    · exact hslide i hi

/-- **A channel that does not carry the tempo sends none.** -/
theorem silent_processRow {index : Nat} {advances : Bool} (hc : job.carriesTempo = false)
    (hv : v.row = []) (h : v.processRow job index row speed rest = .ok (v', advances)) :
    ∀ i ∈ v'.row, i.setsTempo = false := by
  obtain ⟨⟨-, -, slides, hpaced, hslide⟩, -⟩ := slides_processRow h
  have hempty : (v.tempoOf job row speed).paced = [] := by
    rw [tempoOf, hc, if_neg (by simp), (v.paced_wantTempo job row speed).1, paced, hv]
    rfl
  rw [hempty, List.nil_append] at hpaced
  intro i hi
  by_contra hsets
  have hself : i ∈ i.paced := by
    cases i with
    | op o bytes addresses =>
      cases o <;> first | exact List.mem_singleton_self _ | exact absurd rfl hsets
    | _ => exact absurd rfl hsets
  have hslides : i ∈ slides := hpaced ▸ List.mem_flatMap.2 ⟨i, hi, hself⟩
  exact hsets (hslide i hslides).setsTempo

end Voice

end Stream

end Chiptune
