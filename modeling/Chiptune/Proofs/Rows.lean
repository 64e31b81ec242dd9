import Chiptune.Proofs.RowInstructions

/-!
# A stream plays the rows of its song

`Runs` follows a channel row by row. The stream of a channel is the join of the pieces of its rows
with one more instruction behind it (`generate_ok`), and its tokens are read back as these
instructions (`disassemble_encodeAll`).

* `Runs.played`: the pieces of a run play its rows, one after the other.
* `generate_rows`: **a stream plays just the rows of its song**.
-/

set_option autoImplicit false

namespace Chiptune.Stream

variable {job : Job} {rows : List Row} {speeds : List (Option UInt8)} {loopAt : Option Nat}

/-! ## Row by row -/

/-- The loop mark of a row, if it stands there, and the state behind it. -/
def marked (job : Job) (rows : List Row) (speeds : List (Option UInt8)) (loopAt : Option Nat)
    (index : Nat) (v : Voice) : List Piece × Voice :=
  if loopAt = some index then
    ([(markLoop job rows speeds v).1], (markLoop job rows speeds v).2)
  else ([], v)

/-- A channel without a loop row has no loop mark. -/
theorem marked_none (index : Nat) (v : Voice) : marked job rows speeds none index v = ([], v) :=
  if_neg (by simp)

/-- The loop row has the loop mark in front of it. -/
theorem marked_loop (loop : Nat) (v : Voice) :
    marked job rows speeds (some loop) loop v =
      ([(markLoop job rows speeds v).1], (markLoop job rows speeds v).2) :=
  if_pos rfl

/-- A row other than the loop row has no mark in front of it. -/
theorem marked_of_ne {loop index : Nat} (h : loop ≠ index) (v : Voice) :
    marked job rows speeds (some loop) index v = ([], v) :=
  if_neg fun heq => h (Option.some.inj heq)

/-- The rows of a channel from a given one on: their pieces and the state behind them. -/
inductive Runs (job : Job) (rows : List Row) (speeds : List (Option UInt8)) (loopAt : Option Nat) :
    Nat → List Row → List (Option UInt8) → Voice → List Piece → Voice → Prop
  | nil {index : Nat} {later : List (Option UInt8)} {v : Voice} :
      Runs job rows speeds loopAt index [] later v [] v
  | cons {index : Nat} {row : Row} {rest : List Row} {later : List (Option UInt8)} {v u v' : Voice}
      {advances : Bool} {more : List Piece} :
      (marked job rows speeds loopAt index v).2.processRow job index row later.head?.join rest =
        .ok (u, advances) →
      Runs job rows speeds loopAt (index + 1) rest later.tail { u with row := [] } more v' →
      Runs job rows speeds loopAt index (row :: rest) later v
        ((marked job rows speeds loopAt index v).1 ++ .row u.row advances :: more) v'

/-- A row is processed behind the loop mark, if that is its place. -/
theorem runRow_eq (index : Nat) (row : Row) (speed : Option UInt8) (rest : List Row) (v : Voice) :
    runRow job rows speeds loopAt index row speed rest v = (do
      let (u, advances) ← (marked job rows speeds loopAt index v).2.processRow job index row speed
        rest
      .ok ((marked job rows speeds loopAt index v).1 ++ [.row u.row advances],
        { u with row := [] })) := by
  cases loopAt with
  | none =>
    rw [marked_none]
    rfl
  | some loop =>
    by_cases heq : loop = index
    · subst heq
      rw [marked_loop, runRow, if_pos rfl]
    · rw [marked_of_ne heq, runRow, if_neg fun h => heq (Option.some.inj h)]

theorem runs_of_runRows {index : Nat} {rest : List Row} {later : List (Option UInt8)}
    {done pieces : List Piece} {v v' : Voice}
    (h : runRows job rows speeds loopAt index rest later done v = .ok (pieces, v')) :
    ∃ more, pieces = done.reverse ++ more ∧
      Runs job rows speeds loopAt index rest later v more v' := by
  induction rest generalizing index later done v with
  | nil =>
    cases h
    exact ⟨[], by simp, .nil⟩
  | cons row rest ih =>
    rw [runRows] at h
    split at h
    · cases h
    · rename_i ps u hrow
      rw [runRow_eq] at hrow
      obtain ⟨result, hprocess, hrow⟩ := bind_ok hrow
      cases hrow
      obtain ⟨more, rfl, hmore⟩ := ih h
      exact ⟨_, by simp, .cons hprocess hmore⟩

theorem row_marked (index : Nat) (v : Voice) :
    (marked job rows speeds loopAt index v).2.row = v.row := by
  unfold marked
  split <;> rfl

theorem wanted_marked (index : Nat) (v : Voice) :
    (marked job rows speeds loopAt index v).2.wanted = v.wanted := by
  unfold marked
  split <;> rfl

theorem extends_marked (index : Nat) (v : Voice) :
    v.tables.Extends (marked job rows speeds loopAt index v).2.tables := by
  unfold marked
  split
  · exact v.tables.extends_symbol _
  · exact .refl _

/-- A loop mark plays nothing. -/
theorem tracePieces_marked {channel : Channel} (d : Driver) (index : Nat) (v : Voice)
    (pieces : List Piece) :
    tracePieces channel d ((marked job rows speeds loopAt index v).1 ++ pieces) =
      tracePieces channel d pieces := by
  unfold marked
  split <;> rfl

theorem afterPieces_marked (d : Driver) (index : Nat) (v : Voice) (pieces : List Piece) :
    afterPieces d ((marked job rows speeds loopAt index v).1 ++ pieces) = afterPieces d pieces := by
  unfold marked
  split <;> rfl

/-- A row among the pieces of a row and of those behind it. -/
theorem mem_marked_row {index : Nat} {v : Voice} {is js : List Instruction}
    {advances advances' : Bool} {more : List Piece}
    (h : .row is advances ∈
      (marked job rows speeds loopAt index v).1 ++ .row js advances' :: more) :
    (is = js ∧ advances = advances') ∨ .row is advances ∈ more := by
  unfold marked at h
  split at h <;> simpa [markLoop] using h

/-! ## What the pieces play -/

theorem Strikes.played {channel : Channel} {i : Instruction} {p : Played}
    (h : Strikes channel i p) : i.played channel = [p] := by
  cases h <;> rfl

theorem Strikes.exec {channel : Channel} {i : Instruction} {p : Played}
    (h : Strikes channel i p) (d : Driver) : d.exec i = d := by
  cases h <;> rfl

theorem played_of_isSetting {channel : Channel} {i : Instruction} (h : i.IsSetting) :
    i.played channel = [] := by
  cases i with
  | op o bytes addresses =>
    have ho := h.1
    cases o <;> first | rfl | cases ho
  | instrument slot => rfl
  | _ => exact h.elim

theorem trace_settings {channel : Channel} (d : Driver) {is : List Instruction}
    (h : ∀ i ∈ is, i.IsSetting) : Driver.trace channel d is = [] := by
  induction is generalizing d with
  | nil => rfl
  | cons i is ih =>
    rw [Driver.trace, played_of_isSetting (h i List.mem_cons_self),
      ih _ fun j hj => h j (List.mem_cons_of_mem _ hj)]
    rfl

/-- A row plays one thing, with the settings behind its instructions. -/
theorem Voice.Plays.trace {channel : Channel} {v v' : Voice} {advances : Bool} {p : Played}
    (hv : v.row = []) (h : v.Plays channel v' advances p) (d : Driver) :
    (Piece.row v'.row advances).trace channel d = [(p, d.after v'.row)] := by
  obtain ⟨is, note, hr, his, hadv, hstrikes, hempty⟩ := h.row
  rw [hv, List.nil_append] at hr
  rw [Piece.trace, hr, Driver.trace_append, trace_settings d his, Driver.after_append, hadv]
  cases note with
  | none =>
    rw [hempty rfl]
    rfl
  | some i =>
    have hi := hstrikes i rfl
    simp [Driver.trace, hi.played, Driver.after, hi.exec]

/-- **The pieces of a run play its rows**, one after the other. -/
theorem Runs.played {index : Nat} {rest : List Row} {later : List (Option UInt8)} {v v' : Voice}
    {pieces : List Piece} (h : Runs job rows speeds loopAt index rest later v pieces v')
    (hv : v.row = []) (d : Driver) :
    (tracePieces job.channel d pieces).map Prod.fst = rest.map (rowPlays job) := by
  induction h generalizing d with
  | nil => rfl
  | @cons index row rest later v u v' advances more hrow _ ih =>
    have hplays := Voice.plays_processRow (by rw [row_marked, hv]) hrow
    have htrace := hplays.trace (by rw [row_marked, hv]) d
    rw [tracePieces_marked, tracePieces, htrace, List.map_append, ih rfl]
    rfl

/-! ## What a stream consists of -/

/-- What holds of notes and of empty rows holds of all that is held back. -/
theorem forall_flush {P : Instruction → Prop} (k : Kernel)
    (hnote : ∀ value emptyRow, P (.note value emptyRow)) (hempty : ∀ count, P (.emptyRows count))
    (p : Pending) : ∀ i ∈ flush k p, P i := by
  have hruns : ∀ count, ∀ i ∈ emptyRuns k count, P i := by
    intro count i hi
    rcases List.mem_append.1 hi with hi | hi
    · rw [(List.mem_replicate.1 hi).2]
      exact hempty _
    · split at hi
      · cases hi
      · rw [List.mem_singleton.1 hi]
        exact hempty _
  intro i hi
  unfold flush at hi
  split at hi
  · split at hi
    · rw [List.mem_singleton.1 hi]
      exact hnote _ _
    · rcases List.mem_cons.1 hi with rfl | hi
      · exact hnote _ _
      · exact hruns _ i hi
  · exact hruns _ i hi

/-- What holds of the instructions of all rows, of the labels of the loop marks, of notes and of
empty rows holds of every instruction of the stream. -/
theorem forall_join {P : Instruction → Prop} (k : Kernel) (hnote : ∀ value emptyRow,
    P (.note value emptyRow)) (hempty : ∀ count, P (.emptyRows count)) {pieces : List Piece}
    (hmark : ∀ id, .mark id ∈ pieces → P (.label id))
    (hrow : ∀ is advances, .row is advances ∈ pieces → ∀ i ∈ is, P i) (p : Pending) :
    ∀ i ∈ join k p pieces, P i := by
  have hflush := forall_flush k hnote hempty
  induction pieces generalizing p with
  | nil => exact hflush p
  | cons piece rest ih =>
    have ih := ih (fun id hid => hmark id (List.mem_cons_of_mem _ hid))
      (fun is advances hmem => hrow is advances (List.mem_cons_of_mem _ hmem))
    intro i hi
    cases piece with
    | mark id =>
      rw [join] at hi
      rcases List.mem_append.1 hi with hi | hi
      · exact hflush p i hi
      rcases List.mem_cons.1 hi with rfl | hi
      · exact hmark id List.mem_cons_self
      · exact ih _ i hi
    | row is advances =>
      rw [join] at hi
      simp only at hi
      split at hi
      · exact ih _ i hi
      have heq := holdNote_eq is
      rcases List.mem_append.1 hi with hi | hi
      · rcases List.mem_append.1 hi with hi | hi
        · exact hflush p i hi
        · refine hrow is advances List.mem_cons_self i ?_
          rw [heq]
          exact List.mem_append_left _ hi
      · exact ih _ i hi

/-- The instructions of the rows of a run: settings and what takes up rows. -/
theorem Runs.forall_row {P : Instruction → Prop} (hset : ∀ i : Instruction, i.IsSetting → P i)
    (hstrike : ∀ i p, Strikes job.channel i p → P i) {index : Nat} {rest : List Row}
    {later : List (Option UInt8)} {v v' : Voice} {pieces : List Piece}
    (h : Runs job rows speeds loopAt index rest later v pieces v') (hv : v.row = []) :
    ∀ is advances, .row is advances ∈ pieces → ∀ i ∈ is, P i := by
  induction h with
  | nil => simp
  | @cons index row rest later v u v' advances more hrow _ ih =>
    have hplays := Voice.plays_processRow (by rw [row_marked, hv]) hrow
    intro is adv hmem i hi
    rcases mem_marked_row hmem with ⟨rfl, rfl⟩ | hmem
    · obtain ⟨settings, note, hr, hsettings, -, hstrikes, -⟩ := hplays.row
      rw [row_marked, hv, List.nil_append] at hr
      rw [hr] at hi
      rcases List.mem_append.1 hi with hi | hi
      · exact hset i (hsettings i hi)
      · exact hstrike i _ (hstrikes i (Option.mem_toList.1 hi))
    · exact ih rfl is adv hmem i hi

theorem Runs.row_eq {index : Nat} {rest : List Row} {later : List (Option UInt8)} {v v' : Voice}
    {pieces : List Piece} (h : Runs job rows speeds loopAt index rest later v pieces v')
    (hv : v.row = []) : v'.row = [] := by
  induction h with
  | nil => exact hv
  | cons _ _ ih => exact ih rfl

/-- The tables of a run only grow. -/
theorem Runs.tables {index : Nat} {rest : List Row} {later : List (Option UInt8)} {v v' : Voice}
    {pieces : List Piece} (h : Runs job rows speeds loopAt index rest later v pieces v')
    (hv : v.row = []) : v.tables.Extends v'.tables := by
  induction h with
  | nil => exact .refl _
  | cons hrow _ ih =>
    have hplays := Voice.plays_processRow (by rw [row_marked, hv]) hrow
    exact ((extends_marked _ _).trans hplays.tables).trans (ih rfl)

/-- The symbols of the rows of a run are among those of the tables behind it. -/
theorem Runs.numbered {index : Nat} {rest : List Row} {later : List (Option UInt8)} {v v' : Voice}
    {pieces : List Piece} (h : Runs job rows speeds loopAt index rest later v pieces v')
    (hv : v.row = []) : ∀ is advances, .row is advances ∈ pieces →
      ∀ i ∈ is, i.Numbered v'.tables.symbols.names.size := by
  induction h with
  | nil => simp
  | @cons index row rest later v u v' advances more hrow hmore ih =>
    have hempty : (marked job rows speeds loopAt index v).2.row = [] := by rw [row_marked, hv]
    have hstart : (marked job rows speeds loopAt index v).2.Numbered := by
      rw [Voice.Numbered, hempty]
      exact List.forall_mem_nil _
    intro is adv hmem i hi
    rcases mem_marked_row hmem with ⟨rfl, rfl⟩ | hmem
    · exact ((Voice.plays_processRow hempty hrow).numbered hstart i hi).mono
        (hmore.tables rfl).size_names
    · exact ih rfl is adv hmem i hi

/-- Number of the loop label. -/
def loopLabel (job : Job) (t : Tables) : Nat :=
  (t.symbol ((Label.streamLoop job.songIndex job.channel.shortName).text job.stem)).1

/-- Last instruction of a stream. -/
def lastInstruction (job : Job) (loopAt : Option Nat) (v : Voice) : Instruction :=
  match loopAt with
  | some _ => .op .jump [] [.symbol (loopLabel job v.tables)]
  | none => .op .halt [] []

theorem row_ending {v : Voice} (hv : v.row = []) :
    (ending job loopAt v).row = [lastInstruction job loopAt v] := by
  unfold ending lastInstruction
  cases loopAt with
  | none =>
    have hsupports : job.kernel.supports .halt = true := by cases job.kernel <;> rfl
    simp only [Voice.issue, if_pos hsupports, Voice.emit, hv]
    rfl
  | some index =>
    have hsupports : job.kernel.supports .jump = true := by cases job.kernel <;> rfl
    simp only [Voice.issueAt, if_pos hsupports, Voice.emit, hv]
    rfl

/-- Where a song loops to does not depend on the warnings. -/
theorem loopRow_log (song : Song) (rows : List Row) (log log' : Log) :
    (loopRow song rows log).1 = (loopRow song rows log').1 := by
  unfold loopRow
  split
  · rfl
  · simp only
    split
    · rfl
    · split <;> rfl

/-- The loop row is one of the rows. -/
theorem loopRow_lt {song : Song} {rows : List Row} {log : Log} {loop : Nat}
    (h : (loopRow song rows log).1 = some loop) : loop < rows.length := by
  unfold loopRow at h
  split at h
  · cases h
  · simp only at h
    split at h
    · rename_i index hfind
      cases h
      exact (List.findIdx?_eq_some_iff_getElem.1 hfind).1
    · split at h
      · cases h
      · rename_i hne
        cases h
        exact List.length_pos_iff.2 (by simpa using hne)

/-- State before the first row, with the warnings about the loop point. -/
def opening (job : Job) (rows : List Row) (t : Tables) : Voice :=
  (Voice.start job t).logging fun _ => (loopRow job.song rows (Voice.start job t).tables.log).2

theorem extends_opening (rows : List Row) (u : Tables) :
    u.Extends (opening job rows u).tables := by
  have hstart : u.Extends (Voice.start job u).tables := by
    unfold Voice.start
    cases job.project.tempoMode with
    | groove => exact u.extends_groove _
    | speed => exact .refl u
  exact hstart.trans (Voice.sends_logging (Voice.start job u) _).tables

theorem extends_ending (v : Voice) : v.tables.Extends (ending job loopAt v).tables := by
  unfold ending
  split
  · unfold Voice.issueAt
    split
    · exact v.tables.extends_symbol _
    · exact (Voice.sends_lacking v _).tables
  · unfold Voice.issue
    split
    · exact .refl _
    · exact (Voice.sends_lacking v _).tables

/-- A channel is generated from its rows. -/
theorem generate_iff {t t' : Tables} {tokens : List Token} : generate job t = (.ok tokens, t') ↔
    ∃ rows speeds loopAt pieces v,
      job.song.rows (job.song.track job.channel) = .ok rows ∧
      job.song.speeds rows.length = .ok speeds ∧
      loopAt = (loopRow job.song rows (Voice.start job t).tables.log).1 ∧
      runRows job rows speeds loopAt 0 rows speeds [] (opening job rows t) = .ok (pieces, v) ∧
      Instruction.encodeAll job.kernel
        (join job.kernel {} pieces ++ (ending job loopAt v).row) = .ok tokens ∧
      t' = (ending job loopAt v).tables := by
  unfold generate opening
  constructor
  · intro h
    simp only at h
    split at h
    · cases h
    rename_i rows speeds hrows
    obtain ⟨_, hrows, hsong⟩ := bind_ok hrows
    obtain ⟨_, hspeeds, hsong⟩ := bind_ok hsong
    cases hsong
    split at h
    · cases h
    rename_i pieces v hrun
    split at h
    · rename_i tokens' htokens
      cases h
      exact ⟨rows, speeds, _, pieces, v, hrows, hspeeds, rfl, hrun, htokens, rfl⟩
    · cases h
  · rintro ⟨rows, speeds, loopAt, pieces, v, hrows, hspeeds, rfl, hrun, htokens, rfl⟩
    simp only [hrows, hspeeds, hrun, htokens, bind, Except.bind]

/-- **What a stream is made of**: the join of the pieces of its rows, and one more instruction. -/
theorem generate_ok {t t' : Tables} {tokens : List Token}
    (h : generate job t = (.ok tokens, t')) :
    ∃ rows speeds loopAt pieces v,
      job.song.rows (job.song.track job.channel) = .ok rows ∧
      job.song.speeds rows.length = .ok speeds ∧
      loopAt = (loopRow job.song rows (Voice.start job t).tables.log).1 ∧
      Runs job rows speeds loopAt 0 rows speeds (opening job rows t) pieces v ∧
      Instruction.encodeAll job.kernel
        (join job.kernel {} pieces ++ [lastInstruction job loopAt v]) = .ok tokens ∧
      t' = (ending job loopAt v).tables := by
  obtain ⟨rows, speeds, loopAt, pieces, v, hrows, hspeeds, hloop, hrun, htokens, ht⟩ :=
    generate_iff.1 h
  obtain ⟨more, rfl, hruns⟩ := runs_of_runRows hrun
  rw [row_ending (hruns.row_eq rfl)] at htokens
  exact ⟨rows, speeds, loopAt, _, v, hrows, hspeeds, hloop, hruns, htokens, ht⟩

/-- The tables only grow while a stream is generated. -/
theorem extends_generate {t t' : Tables} {tokens : List Token}
    (h : generate job t = (.ok tokens, t')) : t.Extends t' := by
  obtain ⟨rows, speeds, loopAt, pieces, v, -, -, -, hruns, -, rfl⟩ := generate_ok h
  exact ((extends_opening rows t).trans (hruns.tables rfl)).trans (extends_ending v)

theorem hasOperands_of_isSetting {i : Instruction} (h : i.IsSetting) : i.HasOperands := by
  cases i with
  | op o bytes addresses => exact ⟨h.2.1, h.2.2.1⟩
  | instrument slot => trivial
  | _ => exact h.elim

theorem Strikes.hasOperands {channel : Channel} {i : Instruction} {p : Played}
    (h : Strikes channel i p) : i.HasOperands := by
  cases h <;> trivial

/-- The instructions of a stream carry their operands. -/
theorem Runs.hasOperands {index : Nat} {rest : List Row} {later : List (Option UInt8)}
    {v v' : Voice} {pieces : List Piece}
    (h : Runs job rows speeds loopAt index rest later v pieces v') (hv : v.row = []) (w : Voice) :
    ∀ i ∈ join job.kernel {} pieces ++ [lastInstruction job loopAt w], i.HasOperands := by
  intro i hi
  rcases List.mem_append.1 hi with hi | hi
  · exact forall_join job.kernel (fun _ _ => trivial) (fun _ => trivial) (fun _ _ => trivial)
      (h.forall_row (fun _ => hasOperands_of_isSetting) (fun _ _ => Strikes.hasOperands) hv) {} i hi
  · rw [List.mem_singleton.1 hi]
    unfold lastInstruction
    split <;> exact ⟨rfl, rfl⟩

/-- **A stream plays just the rows of its song**, one after the other. -/
theorem generate_rows {t t' : Tables} {tokens : List Token}
    (h : generate job t = (.ok tokens, t')) :
    ∃ rows, job.song.rows (job.song.track job.channel) = .ok rows ∧
      (disassemble job.kernel tokens).flatMap (·.played job.channel) = rows.map (rowPlays job) := by
  obtain ⟨rows, speeds, loopAt, pieces, v, hrows, -, -, hruns, htokens, -⟩ := generate_ok h
  refine ⟨rows, hrows, ?_⟩
  have hlast : (lastInstruction job loopAt v).played job.channel = [] := by
    unfold lastInstruction
    split <;> rfl
  rw [disassemble_encodeAll (hruns.hasOperands rfl v) htokens, List.flatMap_append,
    ← Driver.map_trace {}, trace_join]
  have hplayed := hruns.played rfl {}
  simp [Pending.trace, hlast, hplayed]

/-- A tune of two bars that returns to the second one. -/
def loopedTune : Job :=
  { project := { instruments := [{ name := "lead", kind := .apu }] }
    kernel := .extended
    machine := .ntsc
    stem := ""
    slots := { slots := [some 0], primary := [0] }
    arpeggios := [3]
    songIndex := 0
    song :=
      { name := "tune", length := 2, patternLength := 4, loopPoint := some 1
        tracks := [{
          channel := .square1
          patterns := [{ notes := [
            { row := 0, value := some (.pitch 36), instrument := some 0, arpeggio := some 0
              volume := some 9 },
            { row := 2, value := some .release },
            { row := 3, value := some .stop, volume := some 12 }] }]
          order := [some 0, some 0] }] }
    channel := .square1
    carriesTempo := true
    patches := none }

theorem exists_of_generate {t : Tables} (h : (generate job t).1.toOption.isSome = true) :
    ∃ tokens t', generate job t = (.ok tokens, t') := by
  obtain ⟨tokens, htokens⟩ := Option.isSome_iff_exists.1 h
  exact ⟨tokens, _, Prod.ext (ok_of_toOption htokens) rfl⟩

theorem generate_loopedTune : ∃ tokens t, generate loopedTune {} = (.ok tokens, t) :=
  exists_of_generate (by decide +kernel)

/-- The tune is played note by note. -/
theorem generate_rows_loopedTune : ∃ tokens t, generate loopedTune {} = (.ok tokens, t) ∧
    (disassemble .extended tokens).flatMap (·.played .square1) =
      [.note 36, .empty, .release, .stop, .note 36, .empty, .release, .stop] := by
  obtain ⟨tokens, t, h⟩ := generate_loopedTune
  obtain ⟨rows, hrows, hplayed⟩ := generate_rows h
  refine ⟨tokens, t, h, hplayed.trans ?_⟩
  have hmap : ((loopedTune.song.rows (loopedTune.song.track .square1)).map
      (List.map (rowPlays loopedTune))).toOption =
      some [.note 36, .empty, .release, .stop, .note 36, .empty, .release, .stop] := by
    decide +kernel
  rw [show loopedTune.song.track .square1 = loopedTune.song.track loopedTune.channel from rfl,
    hrows] at hmap
  exact Option.some.inj hmap

end Chiptune.Stream
