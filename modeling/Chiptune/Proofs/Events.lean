import Chiptune.Proofs.Passes

/-!
# What a driver is sent for each row

`eventRows` sorts what the instructions of a stream send (`f`) by the rows that a driver plays, and
`playEvents` follows the stream and its jumps. Joining rows to a stream leaves what is sent for each
row where it was.

* `eventRows_join`: **a joined stream sends for each row what the pieces of the row send**.
* `playEvents_loop`: from the end of a stream, the rows behind the loop label once more.
-/

set_option autoImplicit false

namespace Chiptune

/-- Number of rows that an instruction takes up. -/
def Instruction.rowCount : Instruction → Nat
  | note _ emptyRow => if emptyRow then 2 else 1
  | emptyRows count => count
  | op o _ _ => if o.advancesRow then 1 else 0
  | _ => 0

namespace Driver

variable {α : Type} {f : Instruction → List α}

/-- What instructions send for each row that they take up, with what was sent `since` the row before
them, and what they send behind their last row. -/
def eventRows (f : Instruction → List α) (since : List α) :
    List Instruction → List (List α) × List α
  | [] => ([], since)
  | i :: rest =>
    match i.rowCount with
    | 0 => eventRows f (since ++ f i) rest
    | count + 1 =>
      let (rows, left) := eventRows f [] rest
      ((since ++ f i) :: (List.replicate count [] ++ rows), left)

/-- What a driver is sent for each row that it plays from some instructions of a stream on, with a
number of jumps. -/
def playEvents (f : Instruction → List α) (stream : List Instruction) :
    Nat → List α → List Instruction → List (List α)
  | _, _, [] => []
  | _, _, .op .halt _ _ :: _ => []
  | 0, _, .op .jump _ _ :: _ => []
  | jumps + 1, since, .op .jump _ [.symbol id] :: _ =>
    playEvents f stream jumps since (behind id stream)
  | jumps, since, i :: rest =>
    match i.rowCount with
    | 0 => playEvents f stream jumps (since ++ f i) rest
    | count + 1 =>
      (since ++ f i) :: (List.replicate count [] ++ playEvents f stream jumps [] rest)
termination_by jumps _ is => (jumps, is.length)

theorem eventRows_append (since : List α) (is js : List Instruction) :
    eventRows f since (is ++ js) =
      ((eventRows f since is).1 ++ (eventRows f (eventRows f since is).2 js).1,
        (eventRows f (eventRows f since is).2 js).2) := by
  induction is generalizing since with
  | nil => rfl
  | cons i is ih =>
    rw [List.cons_append, eventRows, eventRows]
    split
    · exact ih _
    · simp [ih]

/-- Instructions that take up no row send all to the next one. -/
theorem eventRows_settings (since : List α) {is : List Instruction}
    (h : ∀ i ∈ is, i.rowCount = 0) : eventRows f since is = ([], since ++ is.flatMap f) := by
  induction is generalizing since with
  | nil => simp [eventRows]
  | cons i is ih =>
    rw [eventRows, h i List.mem_cons_self]
    simp only
    rw [ih _ fun j hj => h j (List.mem_cons_of_mem _ hj)]
    simp

/-- A stretch without jumps and halts is played to its end. -/
theorem playEvents_append {stream is : List Instruction} (h : ∀ i ∈ is, leaves i = false)
    (jumps : Nat) (since : List α) (rest : List Instruction) :
    playEvents f stream jumps since (is ++ rest) =
      (eventRows f since is).1 ++ playEvents f stream jumps (eventRows f since is).2 rest := by
  induction is generalizing since with
  | nil => rfl
  | cons i is ih =>
    have ih := fun since => ih (fun j hj => h j (List.mem_cons_of_mem _ hj)) since
    have hi := h i List.mem_cons_self
    rw [List.cons_append, playEvents, eventRows]
    · split
      · exact ih _
      · simp [ih]
    · rintro _ _ rfl
      cases hi
    · rintro _ _ - rfl
      cases hi
    · rintro _ _ _ - rfl
      cases hi

/-- A stretch that ends with a halt is played once. -/
theorem playEvents_halt {is : List Instruction} (h : ∀ i ∈ is, leaves i = false) (jumps : Nat)
    (since : List α) (stream : List Instruction) (bytes : List UInt8) (targets : List Target) :
    playEvents f stream jumps since (is ++ [.op .halt bytes targets]) =
      (eventRows f since is).1 := by
  rw [playEvents_append h]
  cases jumps <;> simp [playEvents]

/-- **A stretch that ends with a jump is played, and then what follows the label of the jump as
often as jumps are followed**, if nothing is sent behind the last row of either. -/
theorem playEvents_loop {before loop : List Instruction} {id : Nat}
    (hb : .label id ∉ before) (hl : ∀ i ∈ loop, leaves i = false)
    (hleft : (eventRows f [] loop).2 = []) (jumps : Nat) {is : List Instruction}
    (hi : ∀ i ∈ is, leaves i = false) (hend : (eventRows f [] is).2 = []) :
    playEvents f (before ++ .label id :: (loop ++ [.op .jump [] [.symbol id]])) jumps []
        (is ++ [.op .jump [] [.symbol id]]) =
      (eventRows f [] is).1 ++ (List.replicate jumps (eventRows f [] loop).1).flatten := by
  induction jumps generalizing is with
  | zero =>
    rw [playEvents_append hi]
    simp [playEvents]
  | succ jumps ih =>
    rw [playEvents_append hi, hend, playEvents, behind_append hb, ih hl hleft,
      List.replicate_succ, List.flatten_cons]

end Driver

/-! ## Rows joined to a stream -/

namespace Stream

open Driver

variable {α : Type} {f : Instruction → List α}

/-- What a sequence of pieces sends for each of its rows. -/
def eventPieces (f : Instruction → List α) : List Piece → List (List α)
  | [] => []
  | .mark _ :: rest => eventPieces f rest
  | .row is _ :: rest => is.flatMap f :: eventPieces f rest

/-- The instructions of a row: settings, and at most one instruction that takes it up. -/
def Piece.Regular : Piece → Prop
  | mark _ => True
  | row is advances => ∃ settings, ∃ note : Option Instruction, is = settings ++ note.toList ∧
    (∀ i ∈ settings, i.rowCount = 0) ∧ advances = note.isSome ∧ ∀ i ∈ note, i.rowCount = 1

/-- What is left of a row when its note is held back: settings, unless something else than a note
takes up the row. -/
theorem Piece.Regular.held {is : List Instruction} {advances : Bool}
    (h : (Piece.row is advances).Regular) :
    ((∀ i ∈ (holdNote is).1, i.rowCount = 0) ∧ advances = (holdNote is).2.isSome) ∨
    ((holdNote is).2 = none ∧ advances = true ∧ ∃ settings i, (holdNote is).1 = settings ++ [i] ∧
      (∀ i ∈ settings, i.rowCount = 0) ∧ i.rowCount = 1) := by
  obtain ⟨settings, note, his, hsettings, rfl, hcount⟩ := h
  have hheld := holdNote_eq is
  generalize holdNote is = held at hheld ⊢
  obtain ⟨body, value⟩ := held
  rw [his] at hheld
  cases value with
  | none =>
    have hbody : body = settings ++ note.toList := by simpa using hheld.symm
    cases note with
    | none => exact .inl ⟨by simpa [hbody] using hsettings, rfl⟩
    | some i => exact .inr ⟨rfl, rfl, settings, i, hbody, hsettings, hcount i rfl⟩
  | some value =>
    have hlast : settings ++ note.toList = body ++ [.note value false] := by simpa using hheld
    cases note with
    | none =>
      -- a note is no setting
      have hmem : Instruction.note value false ∈ settings := by
        rw [show settings = body ++ [.note value false] by simpa using hlast]
        simp
      have hzero := hsettings _ hmem
      cases hzero
    | some i =>
      obtain ⟨rfl, -⟩ := List.append_inj' hlast rfl
      exact .inl ⟨hsettings, rfl⟩

/-- Number of rows that are not written yet. -/
def Pending.rowCount (p : Pending) : Nat := p.note.toList.length + p.empty

/-- What is sent for a number of rows: all of it for the first one. -/
def firstRow (since : List α) : Nat → List (List α)
  | 0 => []
  | count + 1 => since :: List.replicate count []

@[simp]
theorem firstRow_zero (since : List α) : firstRow since 0 = [] := rfl

@[simp]
theorem firstRow_add_one (since : List α) (count : Nat) :
    firstRow since (count + 1) = since :: List.replicate count [] := rfl

@[simp]
theorem firstRow_nil (count : Nat) : firstRow ([] : List α) count = List.replicate count [] := by
  cases count <;> rfl

/-- An empty row more. -/
theorem firstRow_snoc {since : List α} {count : Nat} (h : count = 0 → since = []) :
    firstRow since (count + 1) = firstRow since count ++ [[]] := by
  cases count with
  | zero => rw [h rfl]; rfl
  | succ count => simp [List.replicate_succ']

section

variable (hnote : ∀ value emptyRow, f (.note value emptyRow) = [])
  (hempty : ∀ count, f (.emptyRows count) = [])

include hempty in
theorem eventRows_empty (since : List α) {is : List Instruction}
    (h : ∀ i ∈ is, ∃ count, i = .emptyRows count) :
    eventRows f since is =
      (firstRow since (emptyRowCount is), if emptyRowCount is = 0 then since else []) := by
  induction is generalizing since with
  | nil => rfl
  | cons i is ih =>
    obtain ⟨count, rfl⟩ := h i List.mem_cons_self
    have ih := fun since => ih since fun j hj => h j (List.mem_cons_of_mem _ hj)
    rw [eventRows, emptyRowCount, emptyRowsIn, hempty, List.append_nil]
    cases count with
    | zero => simp [Instruction.rowCount, ih]
    | succ count =>
      have hsum : count + 1 + emptyRowCount is = count + emptyRowCount is + 1 := by omega
      rw [hsum]
      simp [Instruction.rowCount, ih]

include hempty in
theorem eventRows_emptyRuns (k : Kernel) (since : List α) (count : Nat) :
    eventRows f since (emptyRuns k count) =
      (firstRow since count, if count = 0 then since else []) := by
  rw [eventRows_empty hempty, emptyRuns_rows]
  intro i hi
  rcases List.mem_append.1 hi with hi | hi
  · exact ⟨_, (List.mem_replicate.1 hi).2⟩
  · split at hi
    · cases hi
    · exact ⟨_, List.mem_singleton.1 hi⟩

include hnote hempty in
/-- What was sent since the last row is sent for the first row that was held back. -/
theorem eventRows_flush (k : Kernel) (since : List α) (p : Pending) :
    eventRows f since (flush k p) =
      (firstRow since p.rowCount, if p.rowCount = 0 then since else []) := by
  unfold flush Pending.rowCount
  split
  · rename_i value hvalue
    rw [hvalue]
    split
    · rename_i hpack
      have hone : p.empty = 1 := by simp_all
      simp [eventRows, Instruction.rowCount, hnote, hone]
    · have hsum : (some value).toList.length + p.empty = p.empty + 1 := Nat.add_comm _ _
      rw [eventRows, hsum]
      simp [Instruction.rowCount, hnote, eventRows_emptyRuns hempty]
  · rename_i hvalue
    rw [eventRows_emptyRuns hempty, hvalue]
    simp

variable (hlabel : ∀ id, f (.label id) = [])
include hnote hempty hlabel

/-- **A joined stream sends for each row what the pieces of the row send**, and nothing behind the
last row. -/
theorem eventRows_join (k : Kernel) {pieces : List Piece} (hregular : ∀ p ∈ pieces, p.Regular)
    {p : Pending} {since : List α} (hsince : p.rowCount = 0 → since = []) :
    eventRows f since (join k p pieces) =
      (firstRow since p.rowCount ++ eventPieces f pieces, []) := by
  have hflush : ∀ {p : Pending} {since : List α}, (p.rowCount = 0 → since = []) →
      eventRows f since (flush k p) = (firstRow since p.rowCount, []) := by
    intro p since hsince
    rw [eventRows_flush hnote hempty]
    split
    · rename_i h
      rw [hsince h]
    · rfl
  induction pieces generalizing p since with
  | nil => simp [join, hflush hsince, eventPieces]
  | cons piece rest ih =>
    have ih := fun {p} {since} => @ih (fun q hq => hregular q (List.mem_cons_of_mem _ hq)) p since
    have hpiece := hregular piece List.mem_cons_self
    cases piece with
    | mark id =>
      rw [join, eventRows_append, hflush hsince, eventRows]
      simp only [Instruction.rowCount, hlabel, List.append_nil]
      rw [ih fun _ => rfl, eventPieces]
      rfl
    | row is advances =>
      rw [join]
      simp only
      split
      · -- nothing is sent, and nothing takes up the row
        rename_i hnil
        obtain rfl : is = [] := by simpa using hnil
        obtain ⟨settings, note, his, -, rfl, -⟩ := hpiece
        obtain ⟨-, rfl⟩ : settings = [] ∧ note = none := by simpa using his.symm
        have hcount : Pending.rowCount { p with empty := p.empty + 1 } = p.rowCount + 1 := by
          simp only [Pending.rowCount]
          omega
        simp only [Option.isSome_none, Bool.false_eq_true, if_false]
        rw [ih (by rw [hcount]; omega), hcount, firstRow_snoc hsince, eventPieces]
        simp
      · have hflat : is.flatMap f = (holdNote is).1.flatMap f := by
          conv => lhs; rw [holdNote_eq is]
          cases (holdNote is).2 <;> simp [hnote]
        have hheld := hpiece.held
        rw [eventPieces, hflat]
        generalize holdNote is = held at hheld ⊢
        obtain ⟨body, value⟩ := held
        simp only at hheld ⊢
        rw [List.append_assoc, eventRows_append, hflush hsince, eventRows_append]
        rcases hheld with ⟨hbody, rfl⟩ | ⟨rfl, rfl, settings, i, rfl, hsettings, hone⟩
        · -- the settings wait for the note or for an empty row
          have hrow : Pending.rowCount { note := value, empty := if value.isSome then 0 else 1 } =
              1 := by
            cases value <;> rfl
          rw [eventRows_settings _ hbody]
          simp only
          rw [ih (by rw [hrow]; omega), hrow]
          simp
        · rw [eventRows_append, eventRows_settings _ hsettings, eventRows, hone]
          simp only [eventRows, if_true]
          rw [ih fun _ => rfl]
          simp [Pending.rowCount]

end

/-! ## Runs -/

variable {job : Job} {rows : List Row} {speeds : List (Option UInt8)} {loopAt : Option Nat}

theorem rowCount_of_isSetting {i : Instruction} (h : i.IsSetting) : i.rowCount = 0 := by
  cases i with
  | op o bytes addresses =>
    have ho := h.1
    cases o <;> first | rfl | cases ho
  | instrument slot => rfl
  | _ => exact h.elim

theorem Strikes.rowCount {channel : Channel} {i : Instruction} {p : Played}
    (h : Strikes channel i p) : i.rowCount = 1 := by
  cases h <;> rfl

theorem Runs.regular {index : Nat} {rest : List Row} {later : List (Option UInt8)} {v v' : Voice}
    {pieces : List Piece} (h : Runs job rows speeds loopAt index rest later v pieces v')
    (hv : v.row = []) : ∀ p ∈ pieces, p.Regular := by
  induction h with
  | nil => simp
  | @cons index row rest later v u v' advances more hrow _ ih =>
    have hplays := Voice.plays_processRow (by rw [row_marked, hv]) hrow
    obtain ⟨settings, note, hr, hsettings, hadvances, hstrikes, -⟩ := hplays.row
    rw [row_marked, hv, List.nil_append] at hr
    have hpiece : (Piece.row u.row advances).Regular :=
      ⟨settings, note, hr, fun i hi => rowCount_of_isSetting (hsettings i hi), hadvances,
        fun i hi => (hstrikes i hi).rowCount⟩
    intro p hp
    cases p with
    | mark id => trivial
    | row is adv =>
      rcases mem_marked_row hp with ⟨rfl, rfl⟩ | hp
      · exact hpiece
      · exact ih rfl _ hp

theorem eventPieces_marked (index : Nat) (v : Voice) (pieces : List Piece) :
    eventPieces f ((marked job rows speeds loopAt index v).1 ++ pieces) = eventPieces f pieces := by
  unfold marked
  split <;> rfl

theorem eventPieces_append {before : List Piece} (h : ∀ id, .mark id ∉ before)
    (after : List Piece) :
    ∃ events, eventPieces f (before ++ after) = events ++ eventPieces f after ∧
      events.length = before.length := by
  induction before with
  | nil => exact ⟨[], rfl, rfl⟩
  | cons piece before ih =>
    obtain ⟨events, hevents, hlength⟩ := ih fun id hid => h id (List.mem_cons_of_mem _ hid)
    cases piece with
    | mark id => exact absurd List.mem_cons_self (h id)
    | row is advances =>
      exact ⟨is.flatMap f :: events, by rw [List.cons_append, eventPieces, hevents]; rfl,
        by simp [hlength]⟩

/-- What the rows behind a loop mark send. -/
theorem drop_eventPieces {before : List Piece} {loop id : Nat} (h : ∀ id, .mark id ∉ before)
    (hlength : before.length = loop) (after : List Piece) :
    (eventPieces f (before ++ .mark id :: after)).drop loop = eventPieces f after := by
  obtain ⟨events, hevents, hcount⟩ := eventPieces_append (f := f) h (.mark id :: after)
  rw [hevents, List.drop_left' (by omega)]
  rfl

/-- **What a driver is sent for each row of a stream**: what the pieces of its rows send, and for
the rows of the loop once more for every jump. -/
theorem generate_events {t t' : Tables} {tokens : List Token}
    (hnote : ∀ value emptyRow, f (.note value emptyRow) = [])
    (hempty : ∀ count, f (.emptyRows count) = []) (hlabel : ∀ id, f (.label id) = [])
    (h : generate job t = (.ok tokens, t')) :
    ∃ rows speeds pieces v, job.song.rows (job.song.track job.channel) = .ok rows ∧
      job.song.speeds rows.length = .ok speeds ∧
      Runs job rows speeds (loopRow job.song rows {}).1 0 rows speeds (opening job rows t) pieces
        v ∧
      v.tables.Extends t' ∧
      ∀ jumps, playEvents f (disassemble job.kernel tokens) jumps []
          (disassemble job.kernel tokens) =
        passRows (loopRow job.song rows {}).1 jumps (eventPieces f pieces) := by
  obtain ⟨rows, speeds, loopAt, pieces, v, hrows, hspeeds, hloopAt, hruns, htokens, rfl⟩ :=
    generate_ok h
  rw [loopRow_log job.song rows (Voice.start job t).tables.log {}] at hloopAt
  subst hloopAt
  refine ⟨rows, speeds, pieces, v, hrows, hspeeds, hruns, extends_ending v, fun jumps => ?_⟩
  rw [disassemble_encodeAll (hruns.hasOperands rfl v) htokens]
  have hregular := hruns.regular rfl
  have hjoin : ∀ {ps : List Piece}, (∀ p ∈ ps, p.Regular) →
      eventRows f [] (join job.kernel {} ps) = (eventPieces f ps, []) := fun hps =>
    eventRows_join hnote hempty hlabel job.kernel hps fun _ => rfl
  cases hl : (loopRow job.song rows {}).1 with
  | none =>
    rw [hl] at hruns
    rw [lastInstruction, playEvents_halt (hruns.straight rfl job.kernel), hjoin hregular, passRows,
      List.append_nil]
  | some loop =>
    have hlt : loop < rows.length := loopRow_lt hl
    rw [hl] at hruns
    obtain ⟨before, w, after, later, hpieces, hbefore, hlength, hw, hloop, -⟩ :=
      hruns.divide (P := fun _ _ _ => True) rfl (fun _ _ => trivial) trivial (Nat.zero_le _)
        (by omega)
    obtain ⟨id, hjump, hother, hstream⟩ := hruns.stream_loop rfl hpieces hbefore hw hloop
    have hafter : eventRows f [] (join job.kernel {} after) = (eventPieces f after, []) :=
      hjoin (hloop.regular hw)
    have hplay := playEvents_loop (f := f) hother (hloop.straight hw job.kernel)
      (congrArg Prod.snd hafter) jumps (hruns.straight rfl job.kernel)
      (congrArg Prod.snd (hjoin hregular))
    have hdrop : (eventPieces f pieces).drop loop = eventPieces f after :=
      hpieces ▸ drop_eventPieces hbefore hlength after
    rw [← hstream, ← hjump, hjoin hregular, hafter] at hplay
    rw [hplay, passRows]
    simp only [hdrop]

end Stream

end Chiptune
