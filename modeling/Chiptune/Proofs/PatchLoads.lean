import Chiptune.Proofs.Holdings
import Chiptune.Proofs.Skeleton

/-!
# The patch timeline and the streams

A `PatchTimeline` has for each row what the channels load there (`loads_build`). Its walk over the
cells of a channel makes every named instrument the current one (`channelLoads_getElem?`), while a
stream takes the instrument of a cell only with a pitch (`voices_current`).

* `timeline_iff_plays`: **the timeline has what a stream plays** wherever both have the same current
  instrument, so on all rows of a channel whose cells name instruments only with a pitch
  (`named_congr`).
-/

set_option autoImplicit false

namespace Chiptune.Stream

open PatchTimeline

variable {job : Job} {rows : List Row} {speeds : List (Option UInt8)} {loopAt : Option Nat}
  {p : Project} {song : Song}

/-! ## The timeline -/

theorem channelLoads_cons (current : Option Nat) (row : Row) (rest : List Row) :
    channelLoads p current (row :: rest) =
      (if row.note.any isPitched then
        (named (fun _ => true) current row.note.toList).filter p.isCustom else none) ::
      channelLoads p (named (fun _ => true) current row.note.toList) rest := by
  rw [channelLoads]
  cases row.note with
  | none => rfl
  | some note =>
    have hcustom : ∀ current : Option Nat,
        (if (current.bind (p.instruments[·]?)).any (·.kind.isVrc7Custom) && isPitched note then
          current else none) = if isPitched note then current.filter p.isCustom else none := by
      intro current
      cases current with
      | none => simp
      | some i =>
        have hany : ((some i).bind (p.instruments[·]?)).any (·.kind.isVrc7Custom) =
            p.isCustom i := rfl
        rw [hany, Option.filter]
        cases isPitched note <;> cases p.isCustom i <;> rfl
    exact congrArg (· :: _) (hcustom _)

/-- **What the timeline has for a row of a channel**: the custom instrument that any cell named
last, on rows with a pitch. -/
theorem channelLoads_getElem? (current : Option Nat) (rows : List Row) (index : Nat) :
    (channelLoads p current rows)[index]? = rows[index]?.map fun row =>
      if row.note.any isPitched then
        (named (fun _ => true) current (cellsOf (rows.take (index + 1)))).filter p.isCustom
      else none := by
  induction rows generalizing current index with
  | nil => simp [channelLoads]
  | cons row rest ih =>
    rw [channelLoads_cons]
    cases index with
    | zero =>
      have hcells : cellsOf ((row :: rest).take (0 + 1)) = row.note.toList := by
        rw [List.take_succ_cons, cellsOf_cons]
        simp [cellsOf]
      rw [hcells]
      rfl
    | succ index =>
      rw [List.getElem?_cons_succ, ih, List.getElem?_cons_succ, List.take_succ_cons, cellsOf_cons]
      simp only [named_append]

theorem length_channelLoads (current : Option Nat) (rows : List Row) :
    (channelLoads p current rows).length = rows.length := by
  induction rows generalizing current with
  | nil => rfl
  | cons row rest ih => rw [channelLoads_cons, List.length_cons, List.length_cons, ih]

/-- Custom instrument that the timeline has for a row of a channel. -/
def loadAt (p : Project) (song : Song) (index : Nat) (channel : Channel) : Option Nat :=
  match song.rows (song.track channel) with
  | .ok rows => (channelLoads p none rows)[index]?.join
  | .error _ => none

/-- The loads of the rows of a song, for some channels one after the other. -/
def loadRows (p : Project) (song : Song) (channels : List Channel) : List (List Nat) :=
  (List.range song.places.length).map fun index =>
    channels.flatMap fun channel => (loadAt p song index channel).toList

theorem loadRows_append (channels others : List Channel) :
    loadRows p song (channels ++ others) =
      List.zipWith (· ++ ·) (loadRows p song channels) (loadRows p song others) := by
  simp only [loadRows, List.zipWith_map, List.zipWith_self, List.flatMap_append]

/-- The loads of one channel. -/
theorem loadRows_channel {channel : Channel} {rows : List Row}
    (h : song.rows (song.track channel) = .ok rows) :
    loadRows p song [channel] = (channelLoads p none rows).map Option.toList := by
  have hlength := Song.length_rows h
  apply List.ext_getElem
  · simp [loadRows, length_channelLoads, hlength]
  · intro index hleft hright
    have hindex : index < (channelLoads p none rows).length := by
      rw [length_channelLoads, hlength]
      simpa [loadRows] using hleft
    simp [loadRows, loadAt, h, List.getElem?_eq_getElem hindex]

theorem loadsOf_ok {loads : List (List Nat)} (h : loadsOf p song = .ok loads) :
    loads = loadRows p song (p.channels.filter Channel.isVrc7) ∨
      p.channels.filter Channel.isVrc7 = [] ∧ loads = [] := by
  have hfold : ∀ {channels done : List Channel} {before after : List (List Nat)},
      (before = loadRows p song done ∨ done = [] ∧ before = []) →
      channels.foldlM (fun loads channel => do
          let rows ← song.rows (song.track channel)
          let added := (channelLoads p none rows).map Option.toList
          .ok (if loads.isEmpty then added else List.zipWith (· ++ ·) loads added)) before =
        Except.ok after →
      after = loadRows p song (done ++ channels) ∨ done ++ channels = [] ∧ after = [] := by
    intro channels
    induction channels with
    | nil =>
      intro done before after hbefore h
      cases h
      simpa using hbefore
    | cons channel rest ih =>
      intro done before after hbefore h
      rw [List.foldlM_cons] at h
      obtain ⟨next, hnext, h⟩ := bind_ok h
      obtain ⟨rows, hrows, hnext⟩ := bind_ok hnext
      have hstep : next = loadRows p song (done ++ [channel]) := by
        rw [← loadRows_channel hrows] at hnext
        cases hnext
        rcases hbefore with rfl | ⟨rfl, rfl⟩
        · rw [loadRows_append]
          split
          · -- a song without rows
            rename_i hempty
            have hnil : song.places = [] := by simpa [loadRows] using hempty
            simp [loadRows, hnil]
          · rfl
        · rfl
      have hrest := ih (.inl hstep) h
      rwa [List.append_assoc] at hrest
  exact hfold (.inr ⟨rfl, rfl⟩) h

/-- **The timeline of a song** has on each row what its channels load there, in their order. -/
theorem loads_build {log log' : Log} {timeline : PatchTimeline}
    (h : build p song log = .ok (timeline, log')) (index : Nat) :
    timeline.loads.getD index [] = (p.channels.filter Channel.isVrc7).flatMap fun channel =>
      (loadAt p song index channel).toList := by
  obtain ⟨loads, hloads, h⟩ := bind_ok h
  cases h
  have hbeyond : song.places.length ≤ index → ∀ channel, loadAt p song index channel = none := by
    intro hle channel
    unfold loadAt
    split
    · rename_i rows hrows
      rw [List.getElem?_eq_none]
      · rfl
      · rw [length_channelLoads, Song.length_rows hrows]
        exact hle
    · rfl
  rcases loadsOf_ok hloads with rfl | ⟨hnone, rfl⟩
  · by_cases hindex : index < song.places.length
    · simp [loadRows, hindex]
    · simp [loadRows, hindex, hbeyond (by omega)]
  · simp [hnone]

/-- Without neighbours that differ all elements are equal. -/
theorem eq_of_disagree {xs : List Nat} (h : disagree xs = false) {i j : Nat} (hi : i ∈ xs)
    (hj : j ∈ xs) : i = j := by
  have hfirst : ∀ {x : Nat} {xs : List Nat}, disagree (x :: xs) = false → ∀ y ∈ xs, y = x := by
    intro x xs
    induction xs generalizing x with
    | nil => simp
    | cons z xs ih =>
      intro h y hy
      simp only [disagree, Bool.or_eq_false_iff, bne_eq_false_iff_eq] at h
      rcases List.mem_cons.1 hy with rfl | hy
      · exact h.1.symm
      · exact (ih h.2 y hy).trans h.1.symm
  cases xs with
  | nil => cases hi
  | cons x xs =>
    have hall : ∀ y ∈ x :: xs, y = x := fun y hy => by
      rcases List.mem_cons.1 hy with rfl | hy
      · rfl
      · exact hfirst h y hy
    exact (hall i hi).trans (hall j hj).symm

/-- **Without a warning the channels load the same patch on every row.** -/
theorem disagree_build {log : Log} {timeline : PatchTimeline}
    (h : build p song log = .ok (timeline, log)) (index : Nat) :
    disagree (timeline.loads.getD index []) = false := by
  have hlength : ∀ (rows : List (List Nat × Nat)) (log : Log),
      (rows.foldl (fun log row => log.warnIf (disagree row.1) .ambiguousSharing
        s!"Song '{song.name}': VRC7 channels use different custom patches on row {row.2}")
        log).warnings.length = log.warnings.length + rows.countP (disagree ·.1) := by
    intro rows
    induction rows with
    | nil => simp
    | cons row rows ih =>
      intro log
      rw [List.foldl_cons, ih, List.countP_cons]
      cases hd : disagree row.1 <;> simp [Log.warnIf, Log.warn]
      omega
  obtain ⟨loads, -, h⟩ := bind_ok h
  simp only [Except.ok.injEq, Prod.mk.injEq] at h
  obtain ⟨rfl, hlog⟩ := h
  have hcount := (congrArg (·.warnings.length) hlog).symm.trans (hlength loads.zipIdx log)
  have hzero : loads.zipIdx.countP (disagree ·.1) = 0 := by omega
  by_cases hindex : index < loads.length
  · have hmem : (loads[index], index) ∈ loads.zipIdx :=
      List.mem_zipIdx_iff_getElem?.2 (List.getElem?_eq_getElem hindex)
    have hfalse := List.countP_eq_zero.1 hzero _ hmem
    simpa [hindex] using hfalse
  · simp [hindex, disagree]

/-! ## The generator -/

/-- States of a channel behind each of its rows while its stream is written. -/
def voicesFrom (job : Job) (rows : List Row) (speeds : List (Option UInt8)) (loopAt : Option Nat) :
    Nat → List Row → List (Option UInt8) → Voice → List Voice
  | _, [], _, _ => []
  | index, row :: rest, later, v =>
    match runRow job rows speeds loopAt index row later.head?.join rest v with
    | .error _ => []
    | .ok (_, u) => u :: voicesFrom job rows speeds loopAt (index + 1) rest later.tail u

/-- States of a channel behind each of its rows, from the tables that its stream is generated with.
-/
def voices (job : Job) (t : Tables) : List Voice :=
  match job.song.rows (job.song.track job.channel) with
  | .error _ => []
  | .ok rows =>
    match job.song.speeds rows.length with
    | .error _ => []
    | .ok speeds =>
      voicesFrom job rows speeds (loopRow job.song rows (Voice.start job t).tables.log).1 0 rows
        speeds (opening job rows t)

theorem Runs.voices {index : Nat} {rest : List Row} {later : List (Option UInt8)} {v v' : Voice}
    {pieces : List Piece} (h : Runs job rows speeds loopAt index rest later v pieces v')
    (hv : v.row = []) (hrest : rows.drop index = rest)
    (hheld : v.holding.mark loopAt index = held job rows loopAt index) :
    (voicesFrom job rows speeds loopAt index rest later v).map Voice.holding =
      rest.mapIdx fun n row => (held job rows loopAt (index + n)).take job (index + n) row := by
  induction h with
  | nil => rfl
  | @cons index row rest later v u v' advances more hrow _ ih =>
    have hholds := holds_processRow hv hrest hheld hrow
    have hrun : runRow job rows speeds loopAt index row later.head?.join rest v =
        .ok ((marked job rows speeds loopAt index v).1 ++ [.row u.row advances],
          { u with row := [] }) := by
      rw [runRow_eq, hrow]
      rfl
    have hmore := ih rfl hholds.rest hholds.next
    have hshift : ∀ n, index + 1 + n = index + (n + 1) := by omega
    simp only [hshift] at hmore
    rw [voicesFrom, hrun, List.mapIdx_cons]
    simp only [List.map_cons, hmore]
    exact congrArg (· :: _) hholds.holding

/-- **The current instrument of the generator** behind each row: the one that a cell with a pitch
named last. -/
theorem voices_current {t t' : Tables} {tokens : List Token}
    (hc : job.channel.instrumentTable.isSome = true) (h : generate job t = (.ok tokens, t'))
    (hrows : job.song.rows (job.song.track job.channel) = .ok rows) (index : Nat) :
    (voices job t)[index]?.map (·.wanted.instrument) =
      rows[index]?.map fun _ => named isPitched none (cellsOf (rows.take (index + 1))) := by
  obtain ⟨rows', speeds, loopAt, pieces, v, hrows', hspeeds, rfl, hruns, -, -⟩ := generate_ok h
  obtain rfl := Except.ok.inj (hrows.symm.trans hrows')
  have hstart : (opening job rows t).holding.mark
      (loopRow job.song rows (Voice.start job t).tables.log).1 0 =
      held job rows (loopRow job.song rows (Voice.start job t).tables.log).1 0 := rfl
  have hvoices := hruns.voices rfl rfl hstart
  have hindex : (voices job t)[index]?.map (·.wanted.instrument) =
      ((voices job t).map Voice.holding)[index]?.map (·.current) := by
    rw [List.getElem?_map, Option.map_map]
    rfl
  rw [hindex]
  unfold voices
  rw [hrows]
  simp only [hspeeds, hvoices, List.getElem?_mapIdx, Option.map_map]
  cases hrow : rows[index]? with
  | none => rfl
  | some row =>
    simp only [Option.map_some, Function.comp_apply, Nat.zero_add, current_take hc,
      held_current hc, cellsOf_take_succ hrow, named_append]

/-- The generator plays a note with a custom instrument on a row of a channel: the instrument is the
current one behind the row. -/
def PlaysCustom (job : Job) (t : Tables) (index i : Nat) : Prop :=
  ∃ rows row v, job.song.rows (job.song.track job.channel) = .ok rows ∧ rows[index]? = some row ∧
    row.note.any isPitched = true ∧ (voices job t)[index]? = some v ∧
    v.wanted.instrument = some i ∧ job.project.isCustom i = true

/-- A channel of a song has a note with a custom instrument on a row: a cell with a pitch named the
instrument last. -/
def HasCustom (p : Project) (song : Song) (index : Nat) (channel : Channel) (i : Nat) : Prop :=
  ∃ rows row, song.rows (song.track channel) = .ok rows ∧ rows[index]? = some row ∧
    row.note.any isPitched = true ∧
    named isPitched none (cellsOf (rows.take (index + 1))) = some i ∧ p.isCustom i = true

/-- **The generator plays the custom instruments of a song.** -/
theorem playsCustom_iff {t t' : Tables} {tokens : List Token}
    (hc : job.channel.instrumentTable.isSome = true) (h : generate job t = (.ok tokens, t'))
    (index i : Nat) :
    PlaysCustom job t index i ↔ HasCustom job.project job.song index job.channel i := by
  constructor
  · rintro ⟨rows, row, v, hrows, hrow, hp, hv, hi, hcustom⟩
    have hcurrent := voices_current hc h hrows index
    rw [hv, hrow, Option.map_some, Option.map_some, hi] at hcurrent
    exact ⟨rows, row, hrows, hrow, hp, (Option.some.inj hcurrent).symm, hcustom⟩
  · rintro ⟨rows, row, hrows, hrow, hp, hi, hcustom⟩
    have hcurrent := voices_current hc h hrows index
    rw [hrow, Option.map_some, hi] at hcurrent
    obtain ⟨v, hv, hvi⟩ := Option.map_eq_some_iff.1 hcurrent
    exact ⟨rows, row, v, hrows, hrow, hp, hv, hvi, hcustom⟩

/-- The timeline has what a channel plays where both walks have the same instrument. -/
theorem loadAt_iff {channel : Channel} {index : Nat}
    (hrows : song.rows (song.track channel) = .ok rows)
    (hagree : named (fun _ => true) none (cellsOf (rows.take (index + 1))) =
      named isPitched none (cellsOf (rows.take (index + 1)))) (i : Nat) :
    loadAt p song index channel = some i ↔ HasCustom p song index channel i := by
  have hhas : HasCustom p song index channel i ↔ ∃ row, rows[index]? = some row ∧
      row.note.any isPitched = true ∧
      named isPitched none (cellsOf (rows.take (index + 1))) = some i ∧ p.isCustom i = true := by
    constructor
    · rintro ⟨rows', row, hrows', hrest⟩
      obtain rfl := Except.ok.inj (hrows.symm.trans hrows')
      exact ⟨row, hrest⟩
    · rintro ⟨row, hrest⟩
      exact ⟨rows, row, hrows, hrest⟩
  rw [hhas]
  unfold loadAt
  rw [hrows]
  simp only [channelLoads_getElem?, hagree]
  cases hrow : rows[index]? with
  | none => simp
  | some row =>
    simp only [Option.map_some, Option.join_some, Option.some.injEq, exists_eq_left']
    cases hp : row.note.any isPitched <;> simp [Option.filter_eq_some_iff]

theorem instrumentTable_of_isVrc7 {channel : Channel} (h : channel.isVrc7 = true) :
    channel.instrumentTable.isSome = true := by
  cases channel <;> first | rfl | cases h

/-- **The timeline has what a stream plays**, in canonical channel order, on every row where the
last instrument that any cell of the channel named is the last one that a cell with a pitch named.
-/
theorem timeline_iff_plays {t t' : Tables} {tokens : List Token} {log log' : Log}
    {timeline : PatchTimeline} (hc : job.channel.isVrc7 = true)
    (hbuild : build job.project job.song log = .ok (timeline, log'))
    (h : generate job t = (.ok tokens, t')) (index : Nat) :
    (timeline.loads.getD index [] = (job.project.channels.filter Channel.isVrc7).flatMap
      fun channel => (loadAt job.project job.song index channel).toList) ∧
    ∃ rows, job.song.rows (job.song.track job.channel) = .ok rows ∧
      (named (fun _ => true) none (cellsOf (rows.take (index + 1))) =
        named isPitched none (cellsOf (rows.take (index + 1))) →
      ∀ i, loadAt job.project job.song index job.channel = some i ↔ PlaysCustom job t index i) := by
  refine ⟨loads_build hbuild index, ?_⟩
  obtain ⟨rows, -, -, -, -, hrows, -⟩ := generate_ok h
  refine ⟨rows, hrows, fun hagree i => ?_⟩
  rw [playsCustom_iff (instrumentTable_of_isVrc7 hc) h]
  exact loadAt_iff hrows hagree i

/-- A note on an FM channel after a cell without a value that names another instrument. -/
def renamedVoice : Job :=
  { loopedTune with
    project :=
      { expansions := { vrc7 := true }
        instruments := [
          { name := "one", kind := .vrc7 0 (Vector.replicate 8 1) },
          { name := "two", kind := .vrc7 0 (Vector.replicate 8 2) }] }
    slots := { slots := [some 0, some 1], extended := [0, 1] }
    song :=
      { name := "tune", length := 1, patternLength := 3
        tracks := [{
          channel := .vrc7Fm1
          patterns := [{ notes := [
            { row := 0, value := some (.pitch 40), instrument := some 0 },
            { row := 1, instrument := some 1 },
            { row := 2, value := some (.pitch 41) }] }]
          order := [some 0] }] }
    channel := .vrc7Fm1
    carriesTempo := false }

theorem generate_renamedVoice : ∃ tokens t, generate renamedVoice {} = (.ok tokens, t) :=
  exists_of_generate (by decide +kernel)

theorem build_renamedVoice : ∃ timeline log,
    build renamedVoice.project renamedVoice.song {} = .ok (timeline, log) := by
  have hsome : (build renamedVoice.project renamedVoice.song {}).toOption.isSome = true := by
    decide +kernel
  obtain ⟨⟨timeline, log⟩, hbuild⟩ := Option.isSome_iff_exists.1 hsome
  exact ⟨timeline, log, ok_of_toOption hbuild⟩

theorem rows_renamedVoice : ∃ rows,
    renamedVoice.song.rows (renamedVoice.song.track .vrc7Fm1) = .ok rows ∧
      named isPitched none (cellsOf (rows.take 1)) = some 0 ∧
      named (fun _ => true) none (cellsOf (rows.take 1)) = some 0 ∧
      named isPitched none (cellsOf (rows.take 3)) = some 0 := by
  have hany : ((renamedVoice.song.rows (renamedVoice.song.track .vrc7Fm1)).toOption.any fun rows =>
      decide (named isPitched none (cellsOf (rows.take 1)) = some 0 ∧
        named (fun _ => true) none (cellsOf (rows.take 1)) = some 0 ∧
        named isPitched none (cellsOf (rows.take 3)) = some 0)) = true := by
    decide +kernel
  obtain ⟨rows, hrows, hnamed⟩ := ok_of_any hany
  exact ⟨rows, hrows, of_decide_eq_true hnamed⟩

/-- On its first row the timeline has the instrument that is played. -/
theorem timeline_iff_plays_renamedVoice :
    renamedVoice.channel.isVrc7 = true ∧ ∃ timeline log tokens t rows,
      build renamedVoice.project renamedVoice.song {} = .ok (timeline, log) ∧
      generate renamedVoice {} = (.ok tokens, t) ∧
      renamedVoice.song.rows (renamedVoice.song.track .vrc7Fm1) = .ok rows ∧
      named (fun _ => true) none (cellsOf (rows.take 1)) =
        named isPitched none (cellsOf (rows.take 1)) ∧
      ∀ i, loadAt renamedVoice.project renamedVoice.song 0 .vrc7Fm1 = some i ↔
        PlaysCustom renamedVoice {} 0 i := by
  have hc : renamedVoice.channel.isVrc7 = true := by decide
  obtain ⟨timeline, log, hbuild⟩ := build_renamedVoice
  obtain ⟨tokens, t, h⟩ := generate_renamedVoice
  obtain ⟨rows, hrows, hpitched, hany, -⟩ := rows_renamedVoice
  obtain ⟨-, rows', hrows', hplays⟩ := timeline_iff_plays hc hbuild h 0
  obtain rfl := Except.ok.inj (hrows.symm.trans hrows')
  have hagree := hany.trans hpitched.symm
  exact ⟨hc, timeline, log, tokens, t, rows, hbuild, h, hrows, hagree, hplays hagree⟩

/-- On its last row the timeline has an instrument that is not played. -/
theorem not_timeline_iff_plays : ¬ ∀ (job : Job) (t t' : Tables) (tokens : List Token)
    (log log' : Log) (timeline : PatchTimeline), job.channel.isVrc7 = true →
      build job.project job.song log = .ok (timeline, log') →
      generate job t = (.ok tokens, t') →
      ∀ index i, loadAt job.project job.song index job.channel = some i ↔
        PlaysCustom job t index i := by
  intro hall
  obtain ⟨timeline, log, hbuild⟩ := build_renamedVoice
  obtain ⟨tokens, t, h⟩ := generate_renamedVoice
  obtain ⟨rows, hrows, -, -, hpitched⟩ := rows_renamedVoice
  have hload : loadAt renamedVoice.project renamedVoice.song 2 .vrc7Fm1 = some 1 := by
    decide +kernel
  have hplays := (hall renamedVoice {} t tokens {} log timeline (by decide) hbuild h 2 1).1 hload
  obtain ⟨rows', -, hrows', -, -, hcurrent, -⟩ := (playsCustom_iff rfl h 2 1).1 hplays
  obtain rfl := Except.ok.inj (hrows.symm.trans hrows')
  rw [hpitched] at hcurrent
  cases hcurrent

end Chiptune.Stream
