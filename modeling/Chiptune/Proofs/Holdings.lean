import Chiptune.Proofs.Asides
import Chiptune.Proofs.Events

/-!
# The instruments of a channel while its stream is written

What a voice knows of its instruments (`Holding`) changes only on rows with a pitch
(`Holding.take`), where an instrument is sent unless the driver has it and no other channel has
replaced its patch (`Holding.sent`). All other steps of a row leave it alone (`Voice.Keeps`), on
every kernel.

* `Voice.loads_syncInstrument`, `Voice.loads_processRow`: **what a row does to the instruments**.
* `Runs.loads`: the slots that the rows of a run load.
-/

set_option autoImplicit false

namespace Chiptune

/-- Slot of the instrument that an instruction loads. -/
def Instruction.loads : Instruction → List Nat
  | instrument slot => [slot]
  | _ => []

/-- The instrument of an index is one with a custom patch. -/
def Project.isCustom (p : Project) (i : Nat) : Bool :=
  p.instruments[i]?.any (·.kind.isVrc7Custom)

namespace Stream

variable {job : Job} {rows : List Row} {speeds : List (Option UInt8)} {loopAt : Option Nat}

/-- The instrument is one that the project has for the channel, and it has a slot. -/
def HasSlot (job : Job) (i : Nat) : Prop :=
  ∃ instrument slot, job.project.instruments[i]? = some instrument ∧
    instrument.kind.fits job.channel = true ∧ job.slots.slot i = some slot

/-- What is known of the instruments of a channel. -/
structure Holding where
  /-- Instrument that a pitched cell named last. -/
  current : Option Nat := none
  /-- Instrument that the driver was told last since the loop mark. -/
  told : Option Nat := none
  /-- Row on which the channel last loaded a custom patch since the loop mark. -/
  lastPatchRow : Option Nat := none

namespace Holding

/-- Whether an instrument must be sent on a row. -/
def isDue (job : Job) (index : Nat) (h : Holding) (i : Nat) : Bool :=
  h.told != some i ||
    (job.project.isCustom i && job.patches.any (·.overwritten i h.lastPatchRow index))

/-- What is known behind the use of an instrument on a row. -/
def use (job : Job) (index : Nat) (h : Holding) (i : Nat) : Holding where
  current := some i
  told := some i
  lastPatchRow := if job.project.isCustom i then some index else h.lastPatchRow

/-- Instrument with which a row plays a note; no instrument plays on the sample channel. -/
def played (job : Job) (h : Holding) (row : Row) : Option Nat :=
  if row.note.any isPitched && job.channel.instrumentTable.isSome then
    row.note.bind (·.instrument) <|> h.current
  else none

/-- What is known behind a row. -/
def take (job : Job) (index : Nat) (h : Holding) (row : Row) : Holding :=
  match h.played job row with
  | some i => h.use job index i
  | none => h

/-- Instrument that is sent on a row. -/
def sent (job : Job) (index : Nat) (h : Holding) (row : Row) : Option Nat :=
  (h.played job row).filter (h.isDue job index)

/-- Slots that a row loads. -/
def loads (job : Job) (index : Nat) (h : Holding) (row : Row) : List Nat :=
  ((h.sent job index row).bind job.slots.slot).toList

variable {h : Holding} {row : Row} {index : Nat}

theorem take_of_none (hp : h.played job row = none) : h.take job index row = h := by
  rw [take, hp]

theorem take_of_some {i : Nat} (hp : h.played job row = some i) :
    h.take job index row = h.use job index i := by
  rw [take, hp]

theorem loads_of_none (hp : h.played job row = none) : h.loads job index row = [] := by
  rw [loads, sent, hp]
  rfl

theorem loads_of_some {i slot : Nat} (hp : h.played job row = some i)
    (hslot : job.slots.slot i = some slot) :
    h.loads job index row = if h.isDue job index i then [slot] else [] := by
  rw [loads, sent, hp, Option.filter]
  split
  · rw [Option.bind_some, hslot]
    rfl
  · rfl

/-- A row without a pitch plays no instrument. -/
theorem played_of_silent (hp : row.note.any isPitched = false) : h.played job row = none := by
  simp [played, hp]

/-- The sample channel plays no instrument. -/
theorem played_of_dpcm (hc : job.channel = .dpcm) : h.played job row = none := by
  simp [played, hc, Channel.instrumentTable]

end Holding

namespace Voice

/-- What a voice knows of the instruments of its channel. -/
def holding (v : Voice) : Holding := ⟨v.wanted.instrument, v.told.instrument, v.lastPatchRow⟩

/-- Slots of the instruments that the current row loads. -/
def loads (v : Voice) : List Nat := v.row.flatMap Instruction.loads

/-! ## Steps that have nothing to do with instruments -/

/-- A step that leaves the instruments alone. -/
structure Keeps (v v' : Voice) : Prop where
  holding : v'.holding = v.holding
  loads : v'.loads = v.loads

theorem Keeps.refl (v : Voice) : v.Keeps v := ⟨rfl, rfl⟩

theorem Keeps.trans {v v' v'' : Voice} (h : v.Keeps v') (h' : v'.Keeps v'') : v.Keeps v'' :=
  ⟨h'.holding.trans h.holding, h'.loads.trans h.loads⟩

theorem loads_of_isAside {i : Instruction} (h : i.isAside = true) : i.loads = [] := by
  cases i <;> first | rfl | cases h

/-- What has nothing to do with instrument and tempo leaves the instruments alone. -/
theorem Aside.keeps {v v' : Voice} (h : v.Aside v') : v.Keeps v' where
  holding := by
    have hcourse := h.course
    simp only [Voice.course, Course.mk.injEq, Prod.mk.injEq] at hcourse
    obtain ⟨⟨htold, hwanted⟩, hrow, -⟩ := hcourse
    simp only [Voice.holding, htold, hwanted, hrow]
  loads := h.row Instruction.loads fun _ => loads_of_isAside

theorem keeps_logging (v : Voice) (change : Log → Log) : v.Keeps (v.logging change) := ⟨rfl, rfl⟩

theorem keeps_issue (v : Voice) (op : Op) (bytes : List UInt8) :
    v.Keeps (v.issue job op bytes) := by
  unfold issue
  split
  · exact ⟨rfl, by simp [loads, emit, Instruction.loads]⟩
  · exact keeps_logging v _

theorem keeps_issueAt (v : Voice) (op : Op) (label : Label) :
    v.Keeps (v.issueAt job op label) := by
  unfold issueAt
  split
  · exact ⟨rfl, by simp [loads, emit, Instruction.loads]⟩
  · exact keeps_logging v _

/-- A step followed by a change of what else the driver was told. -/
theorem Keeps.telling {v v' : Voice} (h : v.Keeps v') {told : Told}
    (ht : told.instrument = v.told.instrument) : v.Keeps { v' with told } := by
  have hcurrent : v'.wanted.instrument = v.wanted.instrument :=
    congrArg Holding.current h.holding
  have hrow : v'.lastPatchRow = v.lastPatchRow := congrArg Holding.lastPatchRow h.holding
  exact ⟨by simp only [Voice.holding, ht, hcurrent, hrow], h.loads⟩

theorem keeps_wantTempo (v : Voice) (row : Row) (speed : Option UInt8) :
    v.Keeps (v.wantTempo job row speed) := by
  unfold wantTempo
  split
  · split
    · exact ⟨rfl, rfl⟩
    · exact .refl v
  · refine Keeps.trans ?_ (keeps_logging _ _)
    split
    · exact ⟨rfl, rfl⟩
    · exact .refl v

theorem keeps_syncTempo (v : Voice) : v.Keeps (v.syncTempo job) := by
  unfold syncTempo
  split
  · simp only
    split
    · exact .refl v
    split
    · exact (keeps_issue v _ _).telling rfl
    · exact keeps_logging v _
  · simp only
    split
    · exact .refl v
    split
    · exact (keeps_issueAt v _ _).telling rfl
    · exact keeps_logging v _

theorem keeps_pitchedNote (v : Voice) (row : Row) (rest : List Row) (note : Note)
    (value : UInt8) : v.Keeps (v.pitchedNote job row rest note value) := by
  have hplain : ∀ (v : Voice) value, v.Keeps (v.plainNote job value) := fun v value =>
    (aside_plainNote v value).keeps
  unfold pitchedNote
  simp only
  refine (aside_clamped v value noteMin noteMax "Note").keeps.trans ?_
  split
  · exact hplain _ _
  · rename_i target _
    refine (aside_clamped _ target noteMin noteMax "Slide target").keeps.trans ?_
    split
    · exact (keeps_logging _ _).trans (hplain _ _)
    split
    · exact (keeps_logging _ _).trans (hplain _ _)
    split
    · exact hplain _ _
    · exact keeps_issue _ _ _

/-! ## The instrument of a cell with a pitch -/

/-- What a row does to the instruments: the one that it plays has a slot, and the row loads this
slot if it is due. -/
structure Loads (job : Job) (index : Nat) (row : Row) (v v' : Voice) : Prop where
  holding : v'.holding = v.holding.take job index row
  loads : v'.loads = v.loads ++ v.holding.loads job index row
  hasSlot : ∀ i, v.holding.played job row = some i → HasSlot job i

theorem Keeps.noLoads {v v' : Voice} {index : Nat} {row : Row} (h : v.Keeps v')
    (hp : v.holding.played job row = none) : v.Loads job index row v' :=
  ⟨by rw [h.holding, Holding.take_of_none hp], by rw [h.loads, Holding.loads_of_none hp]; simp,
    by simp [hp]⟩

theorem Loads.keeps {v v' v'' : Voice} {index : Nat} {row : Row} (h : v.Loads job index row v')
    (h' : v'.Keeps v'') : v.Loads job index row v'' :=
  ⟨h'.holding.trans h.holding, h'.loads.trans h.loads, h.hasSlot⟩

theorem Keeps.thenLoads {v v' v'' : Voice} {index : Nat} {row : Row} (h : v.Keeps v')
    (h' : v'.Loads job index row v'') : v.Loads job index row v'' := by
  obtain ⟨hholding, hloads, hslot⟩ := h'
  rw [h.holding] at hholding hloads hslot
  rw [h.loads] at hloads
  exact ⟨hholding, hloads, hslot⟩

section

variable {v : Voice} {note : Note} {i slot : Nat} {instrument : Instrument}

theorem Picks.hasSlot (h : Picks job note v i instrument slot) : HasSlot job i :=
  ⟨instrument, slot, h.found, h.fits, h.slot⟩

theorem Picks.isCustom (h : Picks job note v i instrument slot) :
    job.project.isCustom i = instrument.kind.isVrc7Custom := by
  rw [Project.isCustom, h.found, Option.any_some]

theorem Picks.isDue (h : Picks job note v i instrument slot) (index : Nat) :
    v.holding.isDue job index i = v.needsSending job index i instrument := by
  rw [Holding.isDue, h.isCustom]
  rfl

/-- The holding is the same whether the instrument has to be sent or not. -/
theorem Picks.use_eq (h : Picks job note v i instrument slot) (index : Nat) :
    v.holding.use job index i =
      ⟨some i, some i, (v.picked index i instrument).lastPatchRow⟩ := by
  rw [Holding.use, h.isCustom]
  rfl

end

/-- **What a cell with a pitch does to the instruments.** -/
theorem loads_syncInstrument {v v' : Voice} {note : Note} {index : Nat} {row : Row}
    (hn : row.note = some note) (hp : isPitched note = true)
    (h : v.syncInstrument job note index = .ok v') : v.Loads job index row v' := by
  have hplayed (htable : job.channel.instrumentTable.isSome = true) :
      v.holding.played job row = (note.instrument <|> v.wanted.instrument) := by
    simp [Holding.played, hn, hp, htable, holding]
  cases syncInstrument_ok h with
  | noTable htable => exact (Keeps.refl v).noLoads (by simp [Holding.played, htable])
  | noInstrument htable hnone =>
    have hwanted : v.wanted.instrument = none := by
      cases hi : note.instrument with
      | none => simpa [hi] using hnone
      | some i => simp [hi] at hnone
    refine Keeps.noLoads ⟨?_, rfl⟩ ((hplayed htable).trans hnone)
    simp only [holding, hwanted]
  | @known i slot instrument hpicks hdue =>
    have hi := (hplayed hpicks.table).trans hpicks.wanted
    refine ⟨?_, ?_, fun j hj => Option.some.inj (hi.symm.trans hj) ▸ hpicks.hasSlot⟩
    · have htold : v.told.instrument = some i := told_of_known hdue
      rw [Holding.take_of_some hi, hpicks.use_eq]
      simp only [holding, picked, htold]
    · rw [Holding.loads_of_some hi hpicks.slot, hpicks.isDue, hdue, if_neg Bool.false_ne_true,
        List.append_nil]
      rfl
  | @sent i slot instrument hpicks hdue =>
    have hi := (hplayed hpicks.table).trans hpicks.wanted
    refine ⟨?_, ?_, fun j hj => Option.some.inj (hi.symm.trans hj) ▸ hpicks.hasSlot⟩
    · rw [Holding.take_of_some hi, hpicks.use_eq]
      rfl
    · rw [Holding.loads_of_some hi hpicks.slot, hpicks.isDue, hdue, if_pos rfl]
      simp only [loads, emit, List.flatMap_append]
      rfl

theorem loads_playValue {v v' : Voice} {index : Nat} {row : Row} {rest : List Row} {note : Note}
    {advances : Bool} (hn : row.note = some note)
    (h : v.playValue job index row rest note = .ok (v', advances)) :
    v.Loads job index row v' := by
  have hsilent : isPitched note = false → v.holding.played job row = none := fun hp =>
    Holding.played_of_silent (by simpa [hn] using hp)
  cases playValue_ok h with
  | sample _ hc hu h =>
    have haside := ((aside_syncContinuous hu).trans (aside_delays _ note)).trans
      (aside_sampleNote h)
    exact haside.keeps.noLoads (Holding.played_of_dpcm hc)
  | @pitch value u w x hv _ hu hw hx =>
    have hp : isPitched note = true := by rw [isPitched, hv]
    have haside : u.Aside (x.delays job note) :=
      ((aside_syncArpeggio hw).trans (aside_syncContinuous hx)).trans (aside_delays x note)
    exact (loads_syncInstrument hn hp hu).keeps
      (haside.keeps.trans (keeps_pitchedNote _ row rest note value))
  | @stop u hv hu =>
    have haside : v.Aside ((u.delays job note).emit (.note 0 false)) :=
      ((aside_syncContinuous hu).trans (aside_delays u note)).trans (aside_emit _ rfl)
    exact haside.keeps.noLoads (hsilent (by rw [isPitched, hv]))
  | @release u hv _ hu =>
    have haside : v.Aside ((u.delays job note).emit (.op .release [] [])) :=
      ((aside_syncContinuous hu).trans (aside_delays u note)).trans (aside_emit _ rfl)
    exact haside.keeps.noLoads (hsilent (by rw [isPitched, hv]))
  | ignored hv _ hu change =>
    exact ((aside_syncContinuous hu).trans (aside_logging _ change)).keeps.noLoads
      (hsilent (by rw [isPitched, hv]))
  | silent hv hu => exact (aside_syncContinuous hu).keeps.noLoads (hsilent (by rw [isPitched, hv]))

theorem keeps_tempoOf (v : Voice) (row : Row) (speed : Option UInt8) :
    v.Keeps (v.tempoOf job row speed) := by
  unfold tempoOf
  split
  · exact (keeps_wantTempo v row speed).trans (keeps_syncTempo _)
  · exact keeps_wantTempo v row speed

/-- **What a row does to the instruments.** -/
theorem loads_processRow {v u : Voice} {index : Nat} {row : Row} {speed : Option UInt8}
    {rest : List Row} {advances : Bool}
    (h : v.processRow job index row speed rest = .ok (u, advances)) :
    v.Loads job index row u := by
  have htempo : v.Keeps (v.tempoOf job row speed) := keeps_tempoOf v row speed
  cases processRow_ok h with
  | silent hnone => exact htempo.noLoads (Holding.played_of_silent (by simp [hnone]))
  | @cell note x _ hnote hresult =>
    have hvalue := (htempo.trans (aside_want _ note).keeps).thenLoads
      (loads_playValue hnote hresult)
    exact hvalue.keeps (Aside.withSome aside_deltaCounter note.deltaCounter).keeps

end Voice

/-! ## Runs -/

/-- Behind the loop mark the instrument of the driver is unknown. -/
def Holding.mark (loopAt : Option Nat) (index : Nat) (h : Holding) : Holding :=
  if loopAt = some index then { h with told := none, lastPatchRow := none } else h

/-- What is known of the instruments of a channel before a row, behind a loop mark that stands
there. -/
def held (job : Job) (rows : List Row) (loopAt : Option Nat) : Nat → Holding
  | 0 => Holding.mark loopAt 0 {}
  | index + 1 =>
    let h := held job rows loopAt index
    Holding.mark loopAt (index + 1) (rows[index]?.elim h (h.take job index))

theorem held_succ {index : Nat} {row : Row} (h : rows[index]? = some row) :
    held job rows loopAt (index + 1) =
      ((held job rows loopAt index).take job index row).mark loopAt (index + 1) := by
  rw [held, h]
  rfl

theorem holding_marked (index : Nat) (v : Voice) :
    (marked job rows speeds loopAt index v).2.holding = v.holding.mark loopAt index := by
  unfold marked Holding.mark
  split <;> rfl

/-- **One row of a run**: what is known before it, and so what it loads and what is known behind it.
-/
structure Holds (job : Job) (rows : List Row) (loopAt : Option Nat) (index : Nat) (row : Row)
    (rest : List Row) (u : Voice) : Prop where
  holding : u.holding = (held job rows loopAt index).take job index row
  loads : u.loads = (held job rows loopAt index).loads job index row
  hasSlot : ∀ i, (held job rows loopAt index).played job row = some i → HasSlot job i
  next : u.holding.mark loopAt (index + 1) = held job rows loopAt (index + 1)
  rest : rows.drop (index + 1) = rest

theorem holds_processRow {index : Nat} {row : Row} {rest : List Row} {speed : Option UInt8}
    {v u : Voice} {advances : Bool} (hv : v.row = []) (hrest : rows.drop index = row :: rest)
    (hheld : v.holding.mark loopAt index = held job rows loopAt index)
    (h : (marked job rows speeds loopAt index v).2.processRow job index row speed rest =
      .ok (u, advances)) : Holds job rows loopAt index row rest u := by
  have hmark : (marked job rows speeds loopAt index v).2.holding = held job rows loopAt index :=
    (holding_marked index v).trans hheld
  have hempty : (marked job rows speeds loopAt index v).2.loads = [] := by
    rw [Voice.loads, row_marked, hv]
    rfl
  obtain ⟨hholding, hloads, hslot⟩ := Voice.loads_processRow h
  rw [hmark] at hholding hloads hslot
  rw [hempty, List.nil_append] at hloads
  have hindex : rows[index]? = some row := by
    rw [← List.head?_drop, hrest]
    rfl
  refine ⟨hholding, hloads, hslot, by rw [held_succ hindex, hholding], ?_⟩
  rw [← List.drop_drop, hrest]
  rfl

/-- **The slots that the rows of a run load**, and the instruments that they play have slots. -/
theorem Runs.loads {index : Nat} {rest : List Row} {later : List (Option UInt8)} {v v' : Voice}
    {pieces : List Piece} (h : Runs job rows speeds loopAt index rest later v pieces v')
    (hv : v.row = []) (hrest : rows.drop index = rest)
    (hheld : v.holding.mark loopAt index = held job rows loopAt index) :
    eventPieces Instruction.loads pieces = rest.mapIdx (fun n row =>
      (held job rows loopAt (index + n)).loads job (index + n) row) ∧
    ∀ n row, rest[n]? = some row → ∀ i,
      (held job rows loopAt (index + n)).played job row = some i → HasSlot job i := by
  induction h with
  | nil => simp [eventPieces]
  | @cons index row rest later v u v' advances more hrow _ ih =>
    have hholds := holds_processRow hv hrest hheld hrow
    obtain ⟨hmore, hslots⟩ := ih rfl hholds.rest hholds.next
    have hshift : ∀ n, index + 1 + n = index + (n + 1) := by omega
    simp only [hshift] at hmore hslots
    refine ⟨?_, fun n r hr => ?_⟩
    · rw [eventPieces_marked, eventPieces, hmore, List.mapIdx_cons]
      exact congrArg (· :: _) hholds.loads
    · cases n with
      | zero =>
        cases hr
        exact hholds.hasSlot
      | succ n => exact hslots n r hr

/-- The slots that the rows of a channel load on a pass of the song. -/
def sentRows (job : Job) (rows : List Row) (loopAt : Option Nat) : List (List Nat) :=
  rows.mapIdx fun index row => (held job rows loopAt index).loads job index row

/-- **The slots that a stream loads on each row that is played**, on every pass of the loop. -/
theorem generate_loads {t t' : Tables} {tokens : List Token}
    (h : generate job t = (.ok tokens, t'))
    (hrows : job.song.rows (job.song.track job.channel) = .ok rows) :
    (∀ jumps, Driver.playEvents Instruction.loads (disassemble job.kernel tokens) jumps []
      (disassemble job.kernel tokens) = passRows (loopRow job.song rows {}).1 jumps
        (sentRows job rows (loopRow job.song rows {}).1)) ∧
    ∀ index row, rows[index]? = some row → ∀ i,
      (held job rows (loopRow job.song rows {}).1 index).played job row = some i →
        HasSlot job i := by
  obtain ⟨rows', speeds, pieces, v, hrows', -, hruns, -, hplay⟩ :=
    generate_events (f := Instruction.loads) (fun _ _ => rfl) (fun _ => rfl) (fun _ => rfl) h
  obtain rfl := Except.ok.inj (hrows.symm.trans hrows')
  have hstart : (opening job rows t).holding.mark (loopRow job.song rows {}).1 0 =
      held job rows (loopRow job.song rows {}).1 0 := rfl
  obtain ⟨hloads, hslots⟩ := hruns.loads rfl rfl hstart
  simp only [Nat.zero_add] at hloads hslots
  exact ⟨fun jumps => by rw [hplay, hloads, sentRows], hslots⟩

/-! ## The current instrument -/

/-- Instrument that is current behind some cells: the last one that was named by those that can name
one. -/
def named (names : Note → Bool) (current : Option Nat) : List Note → Option Nat
  | [] => current
  | note :: rest => named names (if names note then note.instrument <|> current else current) rest

theorem named_append (names : Note → Bool) (current : Option Nat) (cells others : List Note) :
    named names current (cells ++ others) = named names (named names current cells) others := by
  induction cells generalizing current with
  | nil => rfl
  | cons note cells ih => exact ih _

/-- Cells that name no instrument make no difference. -/
theorem named_congr {names names' : Note → Bool} {cells : List Note}
    (h : ∀ n ∈ cells, n.instrument.isSome = true → names n = names' n) (current : Option Nat) :
    named names current cells = named names' current cells := by
  induction cells generalizing current with
  | nil => rfl
  | cons note cells ih =>
    have hnote : (if names note then note.instrument <|> current else current) =
        if names' note then note.instrument <|> current else current := by
      cases hi : note.instrument with
      | none => simp
      | some i => rw [h note List.mem_cons_self (by rw [hi]; rfl)]
    rw [named, named, hnote]
    exact ih (fun n hn => h n (List.mem_cons_of_mem _ hn)) _

theorem cellsOf_cons (row : Row) (rest : List Row) :
    cellsOf (row :: rest) = row.note.toList ++ cellsOf rest := by
  simp only [cellsOf, List.filterMap_cons]
  cases row.note <;> rfl

theorem cellsOf_take_succ {index : Nat} {row : Row} (h : rows[index]? = some row) :
    cellsOf (rows.take (index + 1)) = cellsOf (rows.take index) ++ row.note.toList := by
  have hone : cellsOf [row] = row.note.toList := by rw [cellsOf_cons]; simp [cellsOf]
  rw [List.take_add_one, h, ← hone]
  simp [cellsOf]

theorem current_take {h : Holding} {row : Row} {index : Nat}
    (hc : job.channel.instrumentTable.isSome = true) :
    (h.take job index row).current = named isPitched h.current row.note.toList := by
  by_cases hp : row.note.any isPitched = true
  · obtain ⟨note, hn, hp⟩ := (Option.any_eq_true _ _).1 hp
    have hplayed : h.played job row = (note.instrument <|> h.current) := by
      simp [Holding.played, hn, hp, hc]
    have hnamed : named isPitched h.current row.note.toList = (note.instrument <|> h.current) := by
      simp [hn, named, hp]
    rw [hnamed]
    cases hi : (note.instrument <|> h.current) with
    | some i =>
      rw [Holding.take_of_some (hplayed.trans hi)]
      rfl
    | none =>
      rw [Holding.take_of_none (hplayed.trans hi)]
      cases hj : note.instrument with
      | none => simpa [hj] using hi
      | some j => simp [hj] at hi
  · have hp : row.note.any isPitched = false := by simpa using hp
    rw [Holding.take_of_none (Holding.played_of_silent hp)]
    cases hn : row.note with
    | none => rfl
    | some note =>
      rw [hn, Option.any_some] at hp
      simp [named, hp]

/-- **The current instrument of a channel is the one that a cell with a pitch named last.** -/
theorem held_current (hc : job.channel.instrumentTable.isSome = true) (index : Nat) :
    (held job rows loopAt index).current = named isPitched none (cellsOf (rows.take index)) := by
  have hmark : ∀ index (h : Holding), (h.mark loopAt index).current = h.current := by
    intro index h
    unfold Holding.mark
    split <;> rfl
  induction index with
  | zero => exact hmark 0 {}
  | succ index ih =>
    cases hrow : rows[index]? with
    | none =>
      have hlength : rows.length ≤ index := List.getElem?_eq_none_iff.1 hrow
      rw [held, hmark, hrow, List.take_of_length_le (by omega)]
      rw [List.take_of_length_le hlength] at ih
      exact ih
    | some row =>
      rw [held_succ hrow, hmark, current_take hc, ih, cellsOf_take_succ hrow, named_append]

/-- A row with a pitch plays the instrument that is current behind it. -/
theorem played_held (hc : job.channel.instrumentTable.isSome = true) {index : Nat} {row : Row}
    (hrow : rows[index]? = some row) (hp : row.note.any isPitched = true) :
    (held job rows loopAt index).played job row =
      named isPitched none (cellsOf (rows.take (index + 1))) := by
  obtain ⟨note, hn, hpitched⟩ := (Option.any_eq_true _ _).1 hp
  rw [cellsOf_take_succ hrow, named_append, ← @held_current job rows loopAt hc]
  simp [Holding.played, hn, hpitched, hc, named]

end Stream

end Chiptune
