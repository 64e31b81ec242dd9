import Chiptune.Proofs.Events
import Chiptune.Proofs.Skeleton
import Chiptune.Proofs.StreamGrammar
import Mathlib.Algebra.Ring.Nat

/-!
# All channels of a song loop together

The channels of a song are written one by one, and each finds the loop row among its own rows. How
many rows a song has and to which one it returns is a matter of its positions alone
(`Song.rowCount`, `Song.loopStart`), so no channel drifts from the others.

* `Song.findIdx?_placesFrom`: the first place of a position that has rows.
* `loopRow_eq_loopStart`: every track returns to the loop row of the song.
* `generate_returns`: where a stream returns to.
* `generate_together`: **two channels of a song play as many rows and return to the same one**.
-/

set_option autoImplicit false

namespace Chiptune

namespace Song

/-! ## Rows of a song -/

/-- Number of rows before a position. -/
def rowsBefore (s : Song) (position : Nat) : Nat :=
  ((List.range position).map s.positionLength).sum

/-- Number of rows of a song. -/
def rowCount (s : Song) : Nat := s.rowsBefore s.length

/-- Row that a song returns to from its end: the first one of the first position with rows at or
behind the loop point, where a loop point past the end is the start. -/
def loopStart (s : Song) : Option Nat :=
  if s.rowCount = 0 then none
  else s.loopPoint.map fun point =>
    let first := if point < s.length then point else 0
    match (List.range s.length).find? fun position =>
        decide (first ≤ position) && decide (0 < s.positionLength position) with
    | some position => s.rowsBefore position
    | none => 0

theorem length_placesFrom (s : Song) (count position : Nat) :
    (s.placesFrom count position).length =
      ((List.range' position count).map s.positionLength).sum := by
  induction count generalizing position with
  | zero => rfl
  | succ count ih =>
    rw [placesFrom, List.length_append, ih, List.range'_succ, List.map_cons, List.sum_cons,
      placesAt, List.length_map, List.length_range]

theorem length_places (s : Song) : s.places.length = s.rowCount := by
  rw [places, length_placesFrom, rowCount, rowsBefore, List.range_eq_range']

/-- Every track plays all rows of its song. -/
theorem length_rows_eq (s : Song) {track : Option Track} {rows : List Row}
    (h : s.rows track = .ok rows) : rows.length = s.rowCount := by
  rw [length_rows h, length_places]

/-- The first row of a position, if it is looked for and exists. -/
theorem findIdx?_placesAt (s : Song) (first position : Nat) :
    ((s.placesAt position).findIdx? fun place => decide (first ≤ place.1) && place.2) =
      if first ≤ position ∧ 0 < s.positionLength position then some 0 else none := by
  unfold placesAt
  cases hlength : s.positionLength position with
  | zero => simp
  | succ length =>
    rw [List.range_succ_eq_map, List.map_cons, List.findIdx?_cons]
    by_cases hfirst : first ≤ position
    · simp [hfirst]
    · simp [hfirst]

/-- **The first place of a position with rows** stands behind the rows of the positions in front of
it. -/
theorem findIdx?_placesFrom (s : Song) (first count position : Nat) :
    ((s.placesFrom count position).findIdx? fun place => decide (first ≤ place.1) && place.2) =
      ((List.range' position count).find? fun q =>
        decide (first ≤ q) && decide (0 < s.positionLength q)).map fun q =>
          ((List.range' position (q - position)).map s.positionLength).sum := by
  induction count generalizing position with
  | zero => rfl
  | succ count ih =>
    rw [placesFrom, List.findIdx?_append, findIdx?_placesAt, ih, List.range'_succ]
    by_cases hfound : first ≤ position ∧ 0 < s.positionLength position
    · rw [if_pos hfound, List.find?_cons_of_pos (by simpa using hfound)]
      simp
    · rw [if_neg hfound, List.find?_cons_of_neg (by simpa using hfound), Option.none_or,
        Option.map_map]
      refine Option.map_congr fun q hq => ?_
      -- a position that is found later stands behind this one
      have hlt : position < q := by
        have hmem := List.mem_of_find?_eq_some hq
        rw [List.mem_range'_1] at hmem
        omega
      have hsub : q - position = (q - (position + 1)) + 1 := by omega
      simp only [Function.comp_apply]
      rw [hsub, List.range'_succ, List.map_cons, List.sum_cons, placesAt, List.length_map,
        List.length_range, Nat.add_comm]

/-- A song returns to a row if it has a loop point and rows. -/
theorem isSome_loopStart (s : Song) :
    s.loopStart.isSome = true ↔ s.loopPoint.isSome = true ∧ 0 < s.rowCount := by
  rw [loopStart]
  split
  · rename_i hempty
    simp [hempty]
  · rw [Option.isSome_map]
    exact ⟨fun hpoint => ⟨hpoint, by omega⟩, fun hboth => hboth.1⟩

end Song

namespace Stream

/-- **Every track returns to the loop row of its song.** -/
theorem loopRow_eq_loopStart {song : Song} {track : Option Track} {rows : List Row}
    (h : song.rows track = .ok rows) (log : Log) :
    (loopRow song rows log).1 = song.loopStart := by
  have hlength := song.length_rows_eq h
  rw [loopRow_places, Song.places_rows h, Song.loopStart]
  cases hpoint : song.loopPoint with
  | none => simp
  | some point =>
    have hfirst : (if song.length ≤ point then 0 else point) =
        if point < song.length then point else 0 := by
      split <;> split <;> omega
    simp only [Option.bind_some, Option.map_some, hfirst]
    by_cases hempty : song.rowCount = 0
    · have hplaces : song.places = [] := by
        rw [← List.length_eq_zero_iff, Song.length_places, hempty]
      have hrows : rows = [] := by rw [← List.length_eq_zero_iff, hlength, hempty]
      rw [if_pos hempty, hplaces, hrows]
      rfl
    · have hrows : rows.isEmpty = false := by
        rw [List.isEmpty_eq_false_iff, ← List.length_pos_iff, hlength]
        omega
      rw [if_neg hempty, hrows, Song.places, Song.findIdx?_placesFrom, List.range_eq_range']
      cases (List.range' 0 song.length).find? fun q => _ <;>
        simp [Song.rowsBefore, List.range_eq_range']

end Stream

/-! ## Rows of a stream -/

/-- Number of rows that a sequence of instructions takes up. -/
def rowsTaken (is : List Instruction) : Nat := (is.map Instruction.rowCount).sum

@[simp]
theorem rowsTaken_append (is js : List Instruction) :
    rowsTaken (is ++ js) = rowsTaken is + rowsTaken js := by
  simp [rowsTaken]

/-- An instruction takes up as many rows as it plays. -/
theorem Instruction.rowCount_eq {i : Instruction} (h : i.HasOperands) (channel : Channel) :
    i.rowCount = (i.played channel).length := by
  cases i with
  | note value emptyRow => cases emptyRow <;> rfl
  | emptyRows count => simp [rowCount, played]
  | op o bytes targets =>
    obtain ⟨hbytes, -⟩ := h
    cases o with
    | extendedNote =>
      obtain ⟨value, rfl⟩ := List.length_eq_one_iff.1 hbytes
      rfl
    | slide =>
      obtain ⟨step, source, target, rfl⟩ := List.length_eq_three.1 hbytes
      rfl
    | _ => rfl
  | _ => rfl

theorem rowsTaken_eq {is : List Instruction} (h : ∀ i ∈ is, i.HasOperands) (channel : Channel) :
    rowsTaken is = (is.flatMap (·.played channel)).length := by
  induction is with
  | nil => rfl
  | cons i is ih =>
    rw [rowsTaken, List.map_cons, List.sum_cons, List.flatMap_cons, List.length_append,
      ← Instruction.rowCount_eq (h i List.mem_cons_self),
      ← ih fun j hj => h j (List.mem_cons_of_mem _ hj)]
    rfl

/-- Where a stream goes from its end: a halt, or a jump to its only label, which stands before a
row. -/
inductive Returns : List Instruction → Option Nat → Prop
  | halts {body : List Instruction} (unlabelled : ∀ id, .label id ∉ body) :
      Returns (body ++ [.op .halt [] []]) none
  | jumps {before loop : List Instruction} {id : Nat} (unlabelled : ∀ other, .label other ∉ before)
      (single : ∀ other, .label other ∉ loop) :
      Returns (before ++ .label id :: (loop ++ [.op .jump [] [.symbol id]]))
        (some (rowsTaken before))

/-- A stream has one label if it returns to a row, and none if it does not. -/
theorem Returns.countP_isLabel {is : List Instruction} {loopAt : Option Nat}
    (h : Returns is loopAt) :
    is.countP Instruction.isLabel = if loopAt.isSome = true then 1 else 0 := by
  have hnone : ∀ {js : List Instruction}, (∀ id, .label id ∉ js) →
      js.countP Instruction.isLabel = 0 := by
    intro js hjs
    refine List.countP_eq_zero.2 fun i hi hlabel => ?_
    cases i with
    | label id => exact hjs id hi
    | _ => cases hlabel
  cases h with
  | halts unlabelled =>
    rw [List.countP_append, hnone unlabelled]
    rfl
  | jumps unlabelled single =>
    rw [List.countP_append, List.countP_cons_of_pos (by rfl), List.countP_append,
      hnone unlabelled, hnone single]
    rfl

namespace Stream

variable {job : Job} {rows : List Row} {speeds : List (Option UInt8)} {loopAt : Option Nat}

/-- A run without a loop row has no loop mark. -/
theorem Runs.mark_notMem {index : Nat} {rest : List Row} {later : List (Option UInt8)}
    {v v' : Voice} {pieces : List Piece}
    (h : Runs job rows speeds none index rest later v pieces v') (id : Nat) :
    .mark id ∉ pieces := by
  induction h with
  | nil => exact List.not_mem_nil
  | @cons index row rest later v u v' advances more _ _ ih =>
    rw [marked_none, List.nil_append, List.mem_cons]
    rintro (heq | hmem)
    · cases heq
    · exact ih hmem

/-- The stream of a run takes up as many rows as the run has. -/
theorem Runs.rowsTaken_join {index : Nat} {rest : List Row} {later : List (Option UInt8)}
    {v v' : Voice} {pieces : List Piece}
    (h : Runs job rows speeds loopAt index rest later v pieces v') (hv : v.row = []) :
    rowsTaken (join job.kernel {} pieces) = rest.length := by
  have hoperands : ∀ i ∈ join job.kernel {} pieces, i.HasOperands := fun i hi =>
    h.hasOperands hv v i (List.mem_append_left _ hi)
  have hplayed := congrArg List.length (h.played hv {})
  rw [List.length_map, List.length_map] at hplayed
  rw [rowsTaken_eq hoperands job.channel, ← Driver.map_trace {}, trace_join, List.length_map,
    List.length_append, hplayed]
  simp [Pending.trace]

theorem rowCount_lastInstruction (v : Voice) :
    (lastInstruction job loopAt v).rowCount = 0 := by
  unfold lastInstruction
  split <;> rfl

/-- **Where a stream returns to**: it takes up the rows of its song, and its only label, if it has
one, stands before the loop row. -/
theorem generate_returns {t t' : Tables} {tokens : List Token}
    (h : generate job t = (.ok tokens, t')) :
    rowsTaken (disassemble job.kernel tokens) = job.song.rowCount ∧
      Returns (disassemble job.kernel tokens) job.song.loopStart := by
  obtain ⟨rows, speeds, loopAt, pieces, v, hrows, -, hloop, hruns, htokens, -⟩ := generate_ok h
  have hlength := job.song.length_rows_eq hrows
  have hloopLt : ∀ loop, loopAt = some loop → loop < rows.length := by
    rintro loop rfl
    exact loopRow_lt hloop.symm
  rw [disassemble_encodeAll (hruns.hasOperands rfl v) htokens]
  rw [loopRow_eq_loopStart hrows] at hloop
  constructor
  · rw [rowsTaken_append, hruns.rowsTaken_join rfl, hlength]
    simp [rowsTaken, rowCount_lastInstruction]
  · rw [← hloop]
    cases loopAt with
    | none =>
      refine .halts fun id => ?_
      exact hruns.label_notMem rfl (List.append_nil _).symm (hruns.mark_notMem id) job.kernel
    | some loop =>
      have hlt := hloopLt loop rfl
      obtain ⟨before, w, after, later, hpieces, hbefore, -, hw, hrun, -⟩ :=
        hruns.divide (P := fun _ _ _ => True) rfl (fun _ _ => trivial) trivial (Nat.zero_le _)
          (by omega)
      obtain ⟨id, -, -, hstream⟩ := hruns.stream_loop rfl hpieces hbefore hw hrun
      -- the rows in front of the mark are those that are not behind it
      have htaken : rowsTaken (join job.kernel {} before) = loop := by
        have hall := hruns.rowsTaken_join rfl
        have hafter := hrun.rowsTaken_join hw
        have hsplit : rowsTaken (join job.kernel {} pieces) =
            rowsTaken (join job.kernel {} before) + rowsTaken (join job.kernel {} after) := by
          rw [hpieces, show (markLoop job rows speeds w).1 = .mark _ from rfl, join_mark,
            rowsTaken_append]
          simp [rowsTaken, Instruction.rowCount]
        rw [List.length_drop] at hafter
        omega
      rw [hstream, ← htaken]
      refine .jumps (fun other => ?_) (fun other => ?_)
      · exact hruns.label_notMem rfl hpieces (hbefore other) job.kernel
      · exact hrun.label_notMem hw (List.append_nil _).symm (hrun.mark_notMem other) job.kernel

/-- A stream has one label if its song has a loop point and rows, and none if it has not. -/
theorem generate_labelCount {t t' : Tables} {tokens : List Token}
    (h : generate job t = (.ok tokens, t')) : tokens.countP Token.isLabel =
      if job.song.loopPoint.isSome = true ∧ 0 < job.song.rowCount then 1 else 0 := by
  rw [(generate_playable h).complete.countP_isLabel, (generate_returns h).2.countP_isLabel]
  exact if_congr job.song.isSome_loopStart rfl rfl

/-- **All channels of a song loop together**: the streams of two channels, on whatever kernels, take
up as many rows, and either both halt or both return to the same row. -/
theorem generate_together {job job' : Job} {t t' u u' : Tables} {tokens tokens' : List Token}
    (hsong : job'.song = job.song) (h : generate job t = (.ok tokens, t'))
    (h' : generate job' u = (.ok tokens', u')) :
    rowsTaken (disassemble job.kernel tokens) = job.song.rowCount ∧
    rowsTaken (disassemble job'.kernel tokens') = job.song.rowCount ∧
    Returns (disassemble job.kernel tokens) job.song.loopStart ∧
    Returns (disassemble job'.kernel tokens') job.song.loopStart ∧
    tokens.countP Token.isLabel = tokens'.countP Token.isLabel ∧
    tokens.countP Token.isLabel =
      (if job.song.loopPoint.isSome = true ∧ 0 < job.song.rowCount then 1 else 0) := by
  obtain ⟨hrows, hreturns⟩ := generate_returns h
  obtain ⟨hrows', hreturns'⟩ := generate_returns h'
  have hlabels := generate_labelCount h
  have hlabels' := generate_labelCount h'
  rw [hsong] at hrows' hreturns' hlabels'
  exact ⟨hrows, hrows', hreturns, hreturns', hlabels.trans hlabels'.symm, hlabels⟩

/-- A channel of a song that loops to a position without rows, in front of one with a length of its
own. -/
def skippingTune (channel : Channel) (kernel : Kernel) : Job :=
  { loopedTune with
    kernel
    channel
    song :=
      { name := "skip", length := 4, patternLength := 3, loopPoint := some 1
        overrides := [{ position := 1, length := some 0 }, { position := 2, length := some 5 }]
        tracks := [
          { channel := .square1
            patterns := [{ notes := [
              { row := 1, value := some (.pitch 36), instrument := some 0, arpeggio := some 0 },
              { row := 2, value := some .release }] }]
            order := [some 0, some 0, some 0] },
          { channel := .noise
            patterns := [{ notes := [{ row := 0, value := some (.pitch 40) }] }]
            order := [none, none, none, some 0] }] } }

theorem generate_together_skippingTune :
    (skippingTune .noise .classic).song = (skippingTune .square1 .extended).song ∧
    ∃ tokens t tokens' t', generate (skippingTune .square1 .extended) {} = (.ok tokens, t) ∧
      generate (skippingTune .noise .classic) {} = (.ok tokens', t') ∧
      rowsTaken (disassemble .extended tokens) = 11 ∧
      rowsTaken (disassemble .classic tokens') = 11 ∧
      Returns (disassemble .extended tokens) (some 3) ∧
      Returns (disassemble .classic tokens') (some 3) ∧
      tokens.countP Token.isLabel = tokens'.countP Token.isLabel ∧
      tokens.countP Token.isLabel = 1 := by
  have hsong : (skippingTune .noise .classic).song = (skippingTune .square1 .extended).song := rfl
  obtain ⟨tokens, t, h⟩ : ∃ tokens t, generate (skippingTune .square1 .extended) {} =
      (.ok tokens, t) := exists_of_generate (by decide +kernel)
  obtain ⟨tokens', t', h'⟩ : ∃ tokens t, generate (skippingTune .noise .classic) {} =
      (.ok tokens, t) := exists_of_generate (by decide +kernel)
  have hcount : (skippingTune .square1 .extended).song.rowCount = 11 := by decide +kernel
  have hstart : (skippingTune .square1 .extended).song.loopStart = some 3 := by decide +kernel
  have htogether := generate_together hsong h h'
  rw [hcount, hstart] at htogether
  exact ⟨hsong, tokens, t, tokens', t', h, h', htogether⟩

end Stream

end Chiptune
