import Chiptune.Proofs.Skeleton
import Chiptune.Proofs.Tempo

/-!
# The tempo on every pass of the loop

The rows of a run are played at the tempo that the song asks for (`Runs.timed`). A tempo that is
still known at the loop mark is one that the song never changes (`Unmoved`), so a driver that comes
from the end of the song plays the loop at the same tempo (`Runs.timed_again`).

* `generate_timed`: **every row is played at its tempo, on every pass**.
-/

set_option autoImplicit false

namespace Chiptune.Stream

variable {job : Job} {rows : List Row} {speeds : List (Option UInt8)} {loopAt : Option Nat}
  {t : Tables} {first : Nat}

/-! ## Rows in time -/

/-- Tempo that a song asks for behind a number of its rows. -/
def tempoAfter (job : Job) (rows : List Row) (speeds : List (Option UInt8)) : Nat → Tempo
  | 0 => .start job.song
  | index + 1 =>
    let tempo := tempoAfter job rows speeds index
    rows[index]?.elim tempo fun row => tempo.take job row speeds[index]?.join

theorem tempoAfter_succ {index : Nat} {row : Row} (h : rows[index]? = some row) :
    tempoAfter job rows speeds (index + 1) =
      (tempoAfter job rows speeds index).take job row speeds[index]?.join := by
  rw [tempoAfter, h]
  rfl

/-- What is sent for the row of an index, and the tempo of the driver there, are those that the song
asks for. -/
def RowTimed (job : Job) (t : Tables) (first : Nat) (rows : List Row)
    (speeds : List (Option UInt8)) (index : Nat) (played : List Instruction × Pace) : Prop :=
  ∃ row, rows[index]? = some row ∧ Timed job t first (tempoAfter job rows speeds (index + 1)) row
    (rows.drop (index + 1)) played.1 played.2

/-- What holds of the rows of a first pass, and from every tempo at the end of a pass of those of
the loop, holds of all passes. -/
theorem forall_passRows {α : Type} {R : α → List Instruction × Pace → Prop} {Good : Pace → Prop}
    {p : Pace} {xs : List α} {sent : List (List Instruction)}
    (hfirst : List.Forall₂ R xs (p.rows sent)) (hend : Good (sent.foldl Pace.after p))
    (hagain : ∀ loop, loopAt = some loop → ∀ q, Good q →
      List.Forall₂ R (xs.drop loop) (q.rows (sent.drop loop)) ∧
        Good ((sent.drop loop).foldl Pace.after q)) (jumps : Nat) :
    List.Forall₂ R (passRows loopAt jumps xs) (p.rows (passRows loopAt jumps sent)) := by
  cases loopAt with
  | none => simpa [passRows] using hfirst
  | some loop =>
    rw [passRows, passRows, Pace.rows_append]
    refine List.rel_append hfirst ?_
    generalize sent.foldl Pace.after p = q at hend
    induction jumps generalizing q with
    | zero => exact .nil
    | succ jumps ih =>
      obtain ⟨hpass, hback⟩ := hagain loop rfl q hend
      rw [List.replicate_succ, List.flatten_cons, List.replicate_succ, List.flatten_cons,
        Pace.rows_append]
      exact List.rel_append hpass (ih _ hback)

/-! ## Runs -/

theorem InTime.forget {told : Told} {p : Pace} (h : InTime job t first told p) :
    InTime job t first (told.forget job.song rows speeds) p where
  speed hmode s hs := by
    refine h.speed hmode s ?_
    simp only [Told.forget, keepUnless] at hs
    split at hs
    · cases hs
    · exact hs
  groove g hg := by
    refine h.groove g ?_
    simp only [Told.forget, keepUnless] at hg
    split at hg
    · cases hg
    · exact hg
  lacking := h.lacking

theorem asks_marked {tempo : Tempo} {index : Nat} {v : Voice} (h : v.Asks job tempo) :
    (marked job rows speeds loopAt index v).2.Asks job tempo :=
  h.mono (extends_marked index v) (by rw [wanted_marked]) (by rw [wanted_marked])

theorem inTime_marked {index : Nat} {v : Voice} {p : Pace} (h : InTime job t first v.told p) :
    InTime job t first (marked job rows speeds loopAt index v).2.told p := by
  unfold marked
  split
  · exact h.forget
  · exact h

/-- The row of an index, the rows behind it and their speeds. -/
theorem tempoAfter_of_drop (job : Job) {index : Nat} {row : Row} {rest : List Row}
    {later : List (Option UInt8)} (hrest : rows.drop index = row :: rest)
    (hlater : speeds.drop index = later) :
    rows[index]? = some row ∧ rows.drop (index + 1) = rest ∧
      speeds.drop (index + 1) = later.tail ∧
      tempoAfter job rows speeds (index + 1) =
        (tempoAfter job rows speeds index).take job row later.head?.join := by
  have hrow : rows[index]? = some row := by
    rw [← List.head?_drop, hrest]
    rfl
  refine ⟨hrow, ?_, ?_, ?_⟩
  · rw [← List.drop_drop, hrest]
    rfl
  · rw [← hlater, List.tail_drop]
  · rw [tempoAfter_succ hrow, ← hlater, List.head?_drop]

/-- **The rows of a run are played in time**, and behind them the driver has what it was told. -/
theorem Runs.timed {index : Nat} {rest : List Row} {later : List (Option UInt8)} {v v' : Voice}
    {pieces : List Piece} (h : Runs job rows speeds loopAt index rest later v pieces v')
    (hv : v.row = []) (hrest : rows.drop index = rest) (hlater : speeds.drop index = later)
    (ht : v'.tables.Extends t) (hasks : v.Asks job (tempoAfter job rows speeds index)) {p : Pace}
    (hp : InTime job t first v.told p) :
    List.Forall₂ (RowTimed job t first rows speeds) (List.range' index rest.length)
        (p.rows (eventPieces Instruction.paced pieces)) ∧
      InTime job t first v'.told ((eventPieces Instruction.paced pieces).foldl Pace.after p) := by
  induction h generalizing p with
  | nil => exact ⟨.nil, hp⟩
  | @cons index row rest later v u v' advances more hrow hmore ih =>
    obtain ⟨hindex, hrest', hlater', htempo⟩ := tempoAfter_of_drop job hrest hlater
    have hu : u.tables.Extends t := (hmore.tables rfl).trans ht
    obtain ⟨htimed, hin⟩ := Voice.timed_processRow (by rw [row_marked, hv]) hrow hu
      (asks_marked hasks) (inTime_marked hp)
    have hasked := Voice.asks_processRow hrow (asks_marked hasks)
    rw [← htempo] at htimed hasked
    obtain ⟨hmatches, hlast⟩ := ih rfl hrest' hlater' ht ⟨hasked.speed, hasked.groove⟩ hin
    rw [eventPieces_marked, List.length_cons, List.range'_succ]
    exact ⟨.cons ⟨row, hindex, hrest' ▸ htimed⟩ hmatches, hlast⟩

/-! ## The tempo behind the loop mark -/

/-- What a song never changes of its tempo is what it was in the beginning. -/
structure Unmoved (job : Job) (speeds : List (Option UInt8)) (first : Nat) (v : Voice) : Prop where
  speed : speeds.any Option.isSome = false → v.course.speed = (some job.song.speed, job.song.speed)
  groove : job.song.overrides = [] → v.course.groove = (some first, first)

namespace Voice

variable {v u : Voice} {row : Row} {rest : List Row} {speed : Option UInt8}

/-- A speed that the driver has is not sent again. -/
theorem speed_syncTempo (hv : v.told.speed = some v.wanted.speed) :
    (v.syncTempo job).course.speed = v.course.speed := by
  unfold syncTempo
  split
  · simp only [if_pos hv]
  · simp only
    split
    · rfl
    split
    · simp only [issueAt]
      split <;> rfl
    · rfl

/-- A groove that the driver has is not selected again. -/
theorem groove_syncTempo (hv : v.told.groove = some v.wanted.groove) :
    (v.syncTempo job).course.groove = v.course.groove := by
  unfold syncTempo
  split
  · simp only
    split
    · rfl
    split
    · simp only [issue]
      split <;> rfl
    · rfl
  · simp only [if_pos hv]

theorem speed_wantTempo (v : Voice) (job : Job) (row : Row) :
    (v.wantTempo job row none).course.speed = v.course.speed := by
  unfold wantTempo
  split
  · rfl
  · simp only
    split <;> rfl

theorem groove_wantTempo (v : Voice) (hrow : job.song.rowGroove row = none)
    (speed : Option UInt8) :
    (v.wantTempo job row speed).course.groove = v.course.groove := by
  have hgroove : (if row.isFirst then job.song.positionGroove row.position else none) = none := hrow
  unfold wantTempo
  split
  · split <;> rfl
  · simp only [hgroove]
    rfl

/-- **A row that does not change the tempo leaves it as it is.** -/
theorem unmoved_processRow {index : Nat} {advances : Bool} (hv : Unmoved job speeds first v)
    (hspeed : speed.isSome = true → speeds.any Option.isSome = true)
    (h : v.processRow job index row speed rest = .ok (u, advances)) :
    Unmoved job speeds first u := by
  obtain ⟨hslides, -⟩ := slides_processRow h
  constructor
  · intro hnone
    have hcourse := hv.speed hnone
    obtain rfl : speed = none := by
      rw [← Option.not_isSome_iff_eq_none]
      exact fun hsome => by simp [hspeed hsome] at hnone
    have hwant := (v.speed_wantTempo job row).trans hcourse
    rw [hslides.speed, tempoOf]
    split
    · refine (speed_syncTempo ?_).trans hwant
      simp only [course, Prod.mk.injEq] at hwant
      rw [hwant.1, hwant.2]
    · exact hwant
  · intro hnone
    have hcourse := hv.groove hnone
    have hrow : job.song.rowGroove row = none := by
      simp [Song.rowGroove, Song.positionGroove, Song.overrideAt, hnone]
    have hwant := (v.groove_wantTempo hrow speed).trans hcourse
    rw [hslides.groove, tempoOf]
    split
    · refine (groove_syncTempo ?_).trans hwant
      simp only [course, Prod.mk.injEq] at hwant
      rw [hwant.1, hwant.2]
    · exact hwant

end Voice

/-- What a song never changes of its tempo is not forgotten at the loop mark. -/
theorem Unmoved.forget {v : Voice} (h : Unmoved job speeds first v) :
    Unmoved job speeds first (markLoop job rows speeds v).2 where
  speed hnone := by
    have hcourse := h.speed hnone
    simpa [Voice.course, markLoop, Told.forget, hnone, keepUnless] using hcourse
  groove hnone := by
    have hcourse := h.groove hnone
    simpa [Voice.course, markLoop, Told.forget, hnone, keepUnless] using hcourse

/-- **At the loop mark a driver that comes from the end of the song has the tempo that is known
there.** -/
theorem Unmoved.again {v v' : Voice} {p : Pace} (h : Unmoved job speeds first v)
    (h' : Unmoved job speeds first v') (hp : InTime job t first v'.told p) :
    InTime job t first (markLoop job rows speeds v).2.told p where
  speed hmode s hs := by
    have htold : (markLoop job rows speeds v).2.told.speed =
        keepUnless (speeds.any Option.isSome) v.told.speed := rfl
    rw [htold] at hs
    cases hany : speeds.any Option.isSome with
    | true =>
      rw [hany] at hs
      cases hs
    | false =>
      rw [hany] at hs
      have hsame : v'.told.speed = v.told.speed :=
        congrArg Prod.fst ((h'.speed hany).trans (h.speed hany).symm)
      exact hp.speed hmode s (hsame ▸ hs)
  groove g hg := by
    have htold : (markLoop job rows speeds v).2.told.groove =
        keepUnless (!job.song.overrides.isEmpty) v.told.groove := rfl
    rw [htold] at hg
    cases hany : job.song.overrides with
    | cons o rest =>
      rw [hany] at hg
      cases hg
    | nil =>
      rw [hany] at hg
      have hsame : v'.told.groove = v.told.groove :=
        congrArg Prod.fst ((h'.groove hany).trans (h.groove hany).symm)
      exact hp.groove g (hsame ▸ hg)
  lacking := hp.lacking

theorem unmoved_marked {index : Nat} {v : Voice} (h : Unmoved job speeds first v) :
    Unmoved job speeds first (marked job rows speeds loopAt index v).2 := by
  unfold marked
  split
  · exact h.forget
  · exact h

theorem isSome_head {index : Nat} {later : List (Option UInt8)} (h : speeds.drop index = later)
    (hsome : later.head?.join.isSome = true) : speeds.any Option.isSome = true := by
  cases later with
  | nil => cases hsome
  | cons s later =>
    have hs : s ∈ speeds := List.mem_of_mem_drop (h ▸ List.mem_cons_self)
    exact List.any_eq_true.2 ⟨s, hs, by simpa using hsome⟩

theorem Runs.unmoved {index : Nat} {rest : List Row} {later : List (Option UInt8)} {v v' : Voice}
    {pieces : List Piece} (h : Runs job rows speeds loopAt index rest later v pieces v')
    (hlater : speeds.drop index = later) (hv : Unmoved job speeds first v) :
    Unmoved job speeds first v' := by
  induction h with
  | nil => exact hv
  | @cons index row rest later v u v' advances more hrow hmore ih =>
    have hu := Voice.unmoved_processRow (unmoved_marked hv) (isSome_head hlater) hrow
    exact ih (by rw [← hlater, List.tail_drop]) ⟨hu.speed, hu.groove⟩

/-- **From the end of the song a driver plays the loop in time again.** -/
theorem Runs.timed_again {loop index : Nat} {rest : List Row} {later : List (Option UInt8)}
    {v v' : Voice} {pieces : List Piece}
    (h : Runs job rows speeds (some loop) index rest later v pieces v') (hv : v.row = [])
    (hrest : rows.drop index = rest) (hlater : speeds.drop index = later)
    (ht : v'.tables.Extends t) (hasks : v.Asks job (tempoAfter job rows speeds index))
    (hmoved : Unmoved job speeds first v) (hi : index ≤ loop)
    (hloop : loop < index + rest.length) {p : Pace} (hp : InTime job t first v'.told p) :
    List.Forall₂ (RowTimed job t first rows speeds)
        ((List.range' index rest.length).drop (loop - index))
        (p.rows ((eventPieces Instruction.paced pieces).drop (loop - index))) ∧
      InTime job t first v'.told
        (((eventPieces Instruction.paced pieces).drop (loop - index)).foldl Pace.after p) := by
  induction h with
  | nil =>
    simp only [List.length_nil] at hloop
    omega
  | @cons index row rest later v u v' advances more hrow hmore ih =>
    have hmoved' : Unmoved job speeds first v' := (Runs.cons hrow hmore).unmoved hlater hmoved
    rw [eventPieces_marked]
    by_cases heq : index = loop
    · subst heq
      rw [marked_loop] at hrow
      have hrun : Runs job rows speeds none index (row :: rest) later
          (markLoop job rows speeds v).2 (.row u.row advances :: more) v' :=
        .cons hrow (hmore.unmarked (by omega))
      rw [Nat.sub_self, List.drop_zero, List.drop_zero]
      exact hrun.timed hv hrest hlater ht ⟨hasks.speed, hasks.groove⟩ (hmoved.again hmoved' hp)
    · obtain ⟨-, hrest', hlater', htempo⟩ := tempoAfter_of_drop job hrest hlater
      have hasked := Voice.asks_processRow hrow (asks_marked hasks)
      rw [← htempo] at hasked
      have hmoved := Voice.unmoved_processRow (unmoved_marked hmoved) (isSome_head hlater) hrow
      have hsub : loop - index = (loop - (index + 1)) + 1 := by omega
      simp only [List.length_cons] at hloop
      rw [List.length_cons, List.range'_succ, hsub]
      exact ih rfl hrest' hlater' ht ⟨hasked.speed, hasked.groove⟩ ⟨hmoved.speed, hmoved.groove⟩
        (by omega) (by omega) hp

/-! ## Streams -/

theorem Runs.silent {index : Nat} {rest : List Row} {later : List (Option UInt8)} {v v' : Voice}
    {pieces : List Piece} (h : Runs job rows speeds loopAt index rest later v pieces v')
    (hc : job.carriesTempo = false) (hv : v.row = []) :
    ∀ is advances, .row is advances ∈ pieces → ∀ i ∈ is, i.setsTempo = false := by
  induction h with
  | nil => simp
  | @cons index row rest later v u v' advances more hrow _ ih =>
    intro is adv hmem
    rcases mem_marked_row hmem with ⟨rfl, rfl⟩ | hmem
    · exact Voice.silent_processRow hc (by rw [row_marked, hv]) hrow
    · exact ih rfl is adv hmem

/-- Groove with which a song begins in the tables. -/
def firstGroove (job : Job) (u : Tables) : Nat := (Voice.start job u).wanted.groove

theorem asks_opening (job : Job) {u : Tables} (rows : List Row)
    (hu : job.project.tempoMode = .groove → u.grooves.Indexed) :
    (opening job rows u).Asks job (Tempo.start job.song) where
  speed := rfl
  groove hm := by
    have hwanted : (opening job rows u).wanted.groove = (u.groove job.song.groove).1 ∧
        (opening job rows u).tables.grooves = (u.groove job.song.groove).2.grooves := by
      unfold opening Voice.start
      simp only [hm]
      exact ⟨rfl, rfl⟩
    rw [hwanted.1, hwanted.2]
    exact ⟨(u.extends_groove _).grooves.indexed (hu hm), UniqueTable.find?_intern (hu hm) _ 0⟩

/-- The song's own groove keeps its number in all later tables. -/
theorem firstGroove_found {u u' : Tables} {tokens : List Token}
    (hmode : job.project.tempoMode = .groove) (hu : u.grooves.Indexed)
    (h : generate job u = (.ok tokens, u')) :
    u'.grooves.find? (Tables.grooveBytes job.song.groove) 0 = some (firstGroove job u) := by
  obtain ⟨rows, speeds, loopAt, pieces, v, -, -, -, hruns, -, rfl⟩ := generate_ok h
  obtain ⟨hindexed, hfound⟩ := (asks_opening job rows fun _ => hu).groove hmode
  exact ((hruns.tables rfl).trans (extends_ending v)).grooves.find? hindexed _ _ _ hfound

theorem inTime_opening (job : Job) (t u : Tables) (rows : List Row) {speed : UInt8}
    (hspeed : job.project.tempoMode = .speed → speed = job.song.speed) :
    InTime job t (firstGroove job u) (opening job rows u).told ⟨speed, none⟩ where
  speed := by rintro hmode _ ⟨⟩; exact hspeed hmode
  groove := by rintro _ ⟨⟩; rfl
  lacking _ := rfl

/-- **A channel that does not carry the tempo sends none.** -/
theorem generate_silent {u u' : Tables} {tokens : List Token}
    (h : generate job u = (.ok tokens, u')) (hc : job.carriesTempo = false) :
    ∀ i ∈ disassemble job.kernel tokens, i.setsTempo = false := by
  obtain ⟨rows, speeds, loopAt, pieces, v, -, -, -, hruns, htokens, -⟩ := generate_ok h
  rw [disassemble_encodeAll (hruns.hasOperands rfl v) htokens]
  intro i hi
  rcases List.mem_append.1 hi with hi | hi
  · exact forall_join job.kernel (fun _ _ => rfl) (fun _ => rfl) (fun _ _ => rfl)
      (hruns.silent hc rfl) {} i hi
  · rw [List.mem_singleton.1 hi]
    unfold lastInstruction
    split <;> rfl

/-- **Every row is played at the tempo that the song asks for, on every pass.** -/
theorem generate_timed {u u' : Tables} {tokens : List Token}
    (hu : job.project.tempoMode = .groove → u.grooves.Indexed)
    (h : generate job u = (.ok tokens, u')) (ht : u'.Extends t) {speed : UInt8}
    (hspeed : job.project.tempoMode = .speed → speed = job.song.speed) :
    ∃ rows speeds, job.song.rows (job.song.track job.channel) = .ok rows ∧
      job.song.speeds rows.length = .ok speeds ∧
      ∀ jumps, List.Forall₂ (RowTimed job t (firstGroove job u) rows speeds)
        (passRows (loopRow job.song rows {}).1 jumps (List.range rows.length))
        (Pace.rows ⟨speed, none⟩ (Driver.playEvents Instruction.paced
          (disassemble job.kernel tokens) jumps [] (disassemble job.kernel tokens))) := by
  obtain ⟨rows, speeds, pieces, v, hrows, hspeeds, hruns, hv, hplay⟩ :=
    generate_events (f := Instruction.paced) (fun _ _ => rfl) (fun _ => rfl) (fun _ => rfl) h
  have hasks := asks_opening job rows hu
  have hin := inTime_opening job t u rows hspeed
  have hmoved : Unmoved job speeds (firstGroove job u) (opening job rows u) :=
    ⟨fun _ => rfl, fun _ => rfl⟩
  refine ⟨rows, speeds, hrows, hspeeds, fun jumps => ?_⟩
  obtain ⟨hfirst, hend⟩ := hruns.timed rfl rfl rfl (hv.trans ht) hasks hin
  rw [hplay, List.range_eq_range']
  refine forall_passRows hfirst hend (fun loop hloop q hq => ?_) jumps
  have hlt : loop < rows.length := loopRow_lt hloop
  rw [hloop] at hruns
  exact hruns.timed_again rfl rfl rfl (hv.trans ht) hasks hmoved (Nat.zero_le _) (by omega) hq

end Chiptune.Stream
