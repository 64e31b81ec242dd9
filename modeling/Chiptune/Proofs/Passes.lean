import Chiptune.Proofs.Replies
import Chiptune.Proofs.Streams
import Mathlib.Data.List.Forall2

/-!
# Every pass of the loop

A driver follows the jump at the end of a stream back to the loop label, where it has the settings
of the end of the song. There the invariant of `Settings` holds again (`Steady.hears_again`), so the
rows of the loop are played on every pass as on the first one.

* `Runs.heard`: the rows of a run, by induction, from whatever state the driver begins them with.
* `Runs.divide`: the loop mark divides a run.
* `generate_settings`: **on every pass the settings are those that the song asks for**.
-/

set_option autoImplicit false

namespace Chiptune.Stream

variable {job : Job} {t : Tables} {d : Driver}

variable {rows : List Row} {speeds : List (Option UInt8)} {loopAt : Option Nat}

/-- What is forgotten at the loop mark makes no difference to what the driver has. -/
theorem Hears.forget {told : Told} {wanted : Wanted} (h : Hears t job told wanted d) :
    Hears t job (told.forget job.song rows speeds) wanted d := by
  have hkeep : ∀ {α : Type} {changes : Bool} {value : Option α} {x : α},
      keepUnless changes value = some x → value = some x := by
    intro α changes value x hx
    cases changes
    · exact hx
    · cases hx
  exact
    { volume := fun x hx => h.volume x (hkeep hx)
      finePitch := fun x hx => h.finePitch x (hkeep hx)
      vibrato := fun x hx => h.vibrato x (hkeep hx)
      arpeggio := fun x hx => h.arpeggio x (hkeep hx)
      instrument := fun i hi => by cases hi
      duty := fun x hx => h.duty x (hkeep hx)
      fdsModSpeed := fun x hx => h.fdsModSpeed x (hkeep hx)
      fdsModDepth := fun x hx => h.fdsModDepth x (hkeep hx)
      ownDuty := fun hi => by cases hi
      ownModSpeed := fun hi => by cases hi
      ownModDepth := fun hi => by cases hi }

/-- A setting that is still known at the loop mark is one that no cell changes, so it is the one
that the driver began with. -/
theorem keepUnless_cells {α β : Type} {cells : List Note} {p : Note → Bool} {f : Note → Option β}
    {value initial : Option α} {x : α} (h : keepUnless (cells.any p) value = some x)
    (hp : ∀ n, (f n).isSome = true → p n = true)
    (hinitial : (∀ n ∈ cells, f n = none) → value = initial) :
    initial = some x ∧ ∀ n ∈ cells, f n = none := by
  cases hany : cells.any p with
  | true =>
    rw [hany] at h
    cases h
  | false =>
    have hnone : ∀ n ∈ cells, f n = none := by
      intro n hn
      by_cases hf : (f n).isSome = true
      · exact absurd (hp n hf) (by simpa using List.any_eq_false.1 hany n hn)
      · simpa using hf
    rw [hany] at h
    exact ⟨(hinitial hnone).symm.trans h, hnone⟩

/-- **At the loop mark the driver hears the voice again**, whatever it was told since: what is not
forgotten there never changes. -/
theorem Steady.hears_again {told told' : Told} {wanted wanted' : Wanted}
    (h : Steady (cellsOf rows) told wanted.settings)
    (h' : Steady (cellsOf rows) told' wanted'.settings) (hd : Hears t job told' wanted' d) :
    Hears t job (told.forget job.song rows speeds) wanted d := by
  constructor
  case volume =>
    intro x hx
    obtain ⟨hfirst, hcells⟩ := keepUnless_cells hx (fun _ hn => hn) fun hn => (h.volume hn).1
    exact hd.volume x ((h'.volume hcells).1.trans hfirst)
  case finePitch =>
    intro x hx
    obtain ⟨hfirst, hcells⟩ := keepUnless_cells hx (fun _ hn => hn) fun hn => (h.finePitch hn).1
    exact hd.finePitch x ((h'.finePitch hcells).1.trans hfirst)
  case vibrato =>
    intro x hx
    obtain ⟨hfirst, hcells⟩ := keepUnless_cells hx (fun _ hn => hn) fun hn => (h.vibrato hn).1
    exact hd.vibrato x ((h'.vibrato hcells).1.trans hfirst)
  case arpeggio =>
    intro x hx
    obtain ⟨hfirst, hcells⟩ := keepUnless_cells hx (fun _ hn => hn) fun hn => h.arpeggio hn
    exact hd.arpeggio x ((h'.arpeggio hcells).trans hfirst)
  -- the settings that an instrument changes too are not known before any cell sets them
  case duty =>
    intro x hx
    obtain ⟨hfirst, -⟩ := keepUnless_cells (f := Note.duty) hx (by simp +contextual)
      fun hn => (h.duty hn).1
    cases hfirst
  case fdsModSpeed =>
    intro x hx
    obtain ⟨hfirst, -⟩ := keepUnless_cells (f := Note.fdsModSpeed) hx (by simp +contextual)
      fun hn => (h.fdsModSpeed hn).1
    cases hfirst
  case fdsModDepth =>
    intro x hx
    obtain ⟨hfirst, -⟩ := keepUnless_cells (f := Note.fdsModDepth) hx (by simp +contextual)
      fun hn => (h.fdsModDepth hn).1
    cases hfirst
  case instrument =>
    intro i hi
    cases hi
  all_goals
    intro hi
    cases hi

/-! ## The rows of a run -/

/-- What no cell changes is not forgotten at the loop mark. -/
theorem Steady.forget {told : Told} {s : Settings} (h : Steady (cellsOf rows) told s) :
    Steady (cellsOf rows) (told.forget job.song rows speeds) s := by
  have hkept : ∀ {α β : Type} {f : Note → Option α} {value : Option β},
      (∀ n ∈ cellsOf rows, f n = none) →
      keepUnless ((cellsOf rows).any fun n => (f n).isSome) value = value := by
    intro α β f value hf
    have hany : (cellsOf rows).any (fun n => (f n).isSome) = false := by simpa using hf
    rw [hany]
    rfl
  have hunknown : ∀ {α : Type} {value : Option α}, value = none →
      ∀ changes, keepUnless changes value = none := by
    rintro α value rfl changes
    cases changes <;> rfl
  exact
    { volume := fun hn => ⟨(hkept hn).trans (h.volume hn).1, (h.volume hn).2⟩
      finePitch := fun hn => ⟨(hkept hn).trans (h.finePitch hn).1, (h.finePitch hn).2⟩
      vibrato := fun hn => ⟨(hkept hn).trans (h.vibrato hn).1, (h.vibrato hn).2⟩
      arpeggio := fun hn => (hkept hn).trans (h.arpeggio hn)
      duty := fun hn => ⟨hunknown (h.duty hn).1 _, (h.duty hn).2⟩
      fdsModSpeed := fun hn => ⟨hunknown (h.fdsModSpeed hn).1 _, (h.fdsModSpeed hn).2⟩
      fdsModDepth := fun hn => ⟨hunknown (h.fdsModDepth hn).1 _, (h.fdsModDepth hn).2⟩ }

theorem hears_marked {index : Nat} {v : Voice} (h : Hears t job v.told v.wanted d) :
    Hears t job (marked job rows speeds loopAt index v).2.told
      (marked job rows speeds loopAt index v).2.wanted d := by
  unfold marked
  split
  · exact h.forget
  · exact h

theorem steady_marked {index : Nat} {v : Voice}
    (h : Steady (cellsOf rows) v.told v.wanted.settings) :
    Steady (cellsOf rows) (marked job rows speeds loopAt index v).2.told
      (marked job rows speeds loopAt index v).2.wanted.settings := by
  unfold marked
  split
  · exact h.forget
  · exact h

theorem steady_opening (rows' : List Row) (u : Tables) :
    Steady (cellsOf rows) (opening job rows' u).told (opening job rows' u).wanted.settings :=
  ⟨fun _ => ⟨rfl, rfl⟩, fun _ => ⟨rfl, rfl⟩, fun _ => ⟨rfl, rfl⟩, fun _ => rfl, fun _ => ⟨rfl, rfl⟩,
    fun _ => ⟨rfl, rfl⟩, fun _ => ⟨rfl, rfl⟩⟩

theorem hears_opening (rows : List Row) (u : Tables) :
    Hears t job (opening job rows u).told (opening job rows u).wanted {} where
  volume := by rintro x ⟨⟩; rfl
  finePitch := by rintro x ⟨⟩; rfl
  vibrato := by rintro x ⟨⟩; rfl
  arpeggio := by rintro x ⟨⟩; rfl
  instrument := by rintro i ⟨⟩
  duty := by rintro x ⟨⟩
  fdsModSpeed := by rintro x ⟨⟩
  fdsModDepth := by rintro x ⟨⟩
  ownDuty := by rintro ⟨⟩
  ownModSpeed := by rintro ⟨⟩
  ownModDepth := by rintro ⟨⟩

/-- Behind the loop mark a run has no other. -/
theorem Runs.unmarked {loop index : Nat} {rest : List Row} {later : List (Option UInt8)}
    {v v' : Voice} {pieces : List Piece}
    (h : Runs job rows speeds (some loop) index rest later v pieces v') (hi : loop < index) :
    Runs job rows speeds none index rest later v pieces v' := by
  induction h with
  | nil => exact .nil
  | @cons index row rest later v u v' advances more hrow _ ih =>
    rw [marked_of_ne (by omega), ← marked_none index] at hrow ⊢
    exact .cons hrow (ih (by omega))

theorem leaves_of_isSetting {i : Instruction} (h : i.IsSetting) : Driver.leaves i = false := by
  cases i with
  | op o bytes addresses =>
    have ho := h.1
    cases o <;> first | rfl | cases ho
  | instrument slot => rfl
  | _ => exact h.elim

theorem Strikes.leaves {channel : Channel} {i : Instruction} {p : Played}
    (h : Strikes channel i p) : Driver.leaves i = false := by
  cases h <;> rfl

/-- Nothing in the rows of a run leaves the stream. -/
theorem Runs.straight {index : Nat} {rest : List Row} {later : List (Option UInt8)}
    {v v' : Voice} {pieces : List Piece}
    (h : Runs job rows speeds loopAt index rest later v pieces v') (hv : v.row = []) (k : Kernel) :
    ∀ i ∈ join k {} pieces, Driver.leaves i = false :=
  forall_join k (fun _ _ => rfl) (fun _ => rfl) (fun _ _ => rfl)
    (h.forall_row (fun _ => leaves_of_isSetting) (fun _ _ => Strikes.leaves) hv) {}

/-- In front of the first mark of a label, a run has no such label. -/
theorem Runs.label_notMem {index id : Nat} {rest : List Row} {later : List (Option UInt8)}
    {v v' : Voice} {pieces before after : List Piece}
    (h : Runs job rows speeds loopAt index rest later v pieces v') (hv : v.row = [])
    (hpieces : pieces = before ++ after) (hbefore : .mark id ∉ before) (k : Kernel) :
    .label id ∉ join k {} before := by
  intro hmem
  refine forall_join (P := fun i => i ≠ .label id) k (by simp) (by simp)
    (fun other hother heq => ?_) (fun is advances hrow => ?_) {} _ hmem rfl
  · cases heq
    exact hbefore hother
  · refine h.forall_row (fun i hi he => ?_) (fun i p hi he => ?_) hv is advances ?_
    · rw [he] at hi
      exact hi
    · rw [he] at hi
      cases hi
    · rw [hpieces]
      exact List.mem_append_left _ hrow

/-- **A stream that loops**: it ends with a jump to the label of its loop mark, which stands nowhere
in front of the mark. -/
theorem Runs.stream_loop {loop index : Nat} {rest : List Row} {later later' : List (Option UInt8)}
    {v w v' : Voice} {pieces before after : List Piece}
    (h : Runs job rows speeds (some loop) index rows later v pieces v') (hv : v.row = [])
    (hpieces : pieces = before ++ (markLoop job rows speeds w).1 :: after)
    (hbefore : ∀ id, .mark id ∉ before) (hw : w.row = [])
    (hloop : Runs job rows speeds none loop rest later' (markLoop job rows speeds w).2 after v') :
    ∃ id, lastInstruction job (some loop) v' = .op .jump [] [.symbol id] ∧
      .label id ∉ join job.kernel {} before ∧
      join job.kernel {} pieces ++ [lastInstruction job (some loop) v'] =
        join job.kernel {} before ++ .label id ::
          (join job.kernel {} after ++ [.op .jump [] [.symbol id]]) := by
  -- the jump names the loop mark
  have hjump : lastInstruction job (some loop) v' =
      .op .jump [] [.symbol (loopLabel job w.tables)] := by
    have hsymbol : loopLabel job v'.tables = loopLabel job w.tables :=
      (hloop.tables hw).symbol_eq
    rw [lastInstruction, hsymbol]
  have hmark : join job.kernel {} pieces = join job.kernel {} before ++
      .label (loopLabel job w.tables) :: join job.kernel {} after := by
    rw [hpieces]
    exact join_mark job.kernel {} before after _
  refine ⟨loopLabel job w.tables, hjump, h.label_notMem hv hpieces (hbefore _) job.kernel, ?_⟩
  rw [hjump, hmark, List.append_assoc]
  rfl

/-- **A stream that jumps to its loop mark plays the run, and then the rows behind the mark once
more for every jump.** -/
theorem Runs.play_loop {loop index : Nat} {rest : List Row} {later later' : List (Option UInt8)}
    {v w v' : Voice} {pieces before after : List Piece}
    (h : Runs job rows speeds (some loop) index rows later v pieces v') (hv : v.row = [])
    (hpieces : pieces = before ++ (markLoop job rows speeds w).1 :: after)
    (hbefore : ∀ id, .mark id ∉ before) (hw : w.row = [])
    (hloop : Runs job rows speeds none loop rest later' (markLoop job rows speeds w).2 after v')
    (jumps : Nat) :
    Driver.play job.channel (join job.kernel {} pieces ++ [lastInstruction job (some loop) v'])
        jumps d (join job.kernel {} pieces ++ [lastInstruction job (some loop) v']) =
      tracePieces job.channel d pieces ++
        Driver.passes job.channel (join job.kernel {} after) jumps (afterPieces d pieces) := by
  obtain ⟨id, hjump, hother, hstream⟩ := h.stream_loop hv hpieces hbefore hw hloop
  have hplay := Driver.play_loop job.channel hother (hloop.straight hw job.kernel) jumps d
    (h.straight hv job.kernel)
  rw [← hstream, ← hjump, trace_join, after_join] at hplay
  exact hplay

/-- **The loop mark divides a run.** The rest is a run of its own from the state behind the mark,
and what every row in front of the mark keeps holds there. -/
theorem Runs.divide {P : Nat → List Row → Voice → Prop} {loop index : Nat} {rest : List Row}
    {later : List (Option UInt8)} {v v' : Voice} {pieces : List Piece}
    (h : Runs job rows speeds (some loop) index rest later v pieces v') (hv : v.row = [])
    (hstep : ∀ {index row rest speed v u advances}, P index (row :: rest) v →
      v.processRow job index row speed rest = .ok (u, advances) →
      P (index + 1) rest { u with row := [] })
    (hP : P index rest v) (hi : index ≤ loop) (hloop : loop < index + rest.length) :
    ∃ before w after later',
      pieces = before ++ (markLoop job rows speeds w).1 :: after ∧
      (∀ id, .mark id ∉ before) ∧ before.length = loop - index ∧ w.row = [] ∧
      Runs job rows speeds none loop (rest.drop (loop - index)) later'
        (markLoop job rows speeds w).2 after v' ∧
      P loop (rest.drop (loop - index)) w := by
  induction h with
  | nil =>
    simp only [List.length_nil] at hloop
    omega
  | @cons index row rest later v u v' advances more hrow hmore ih =>
    by_cases heq : index = loop
    · subst heq
      rw [marked_loop] at hrow ⊢
      rw [Nat.sub_self]
      have hrun : Runs job rows speeds none index (row :: rest) later
          (markLoop job rows speeds v).2 (.row u.row advances :: more) v' :=
        .cons hrow (hmore.unmarked (by omega))
      exact ⟨[], v, .row u.row advances :: more, later, rfl, by simp, rfl, hv, hrun, hP⟩
    · rw [marked_of_ne (Ne.symm heq)] at hrow ⊢
      simp only [List.length_cons] at hloop
      obtain ⟨before, w, after, later', rfl, hbefore, hlength, hw, hrun, hPw⟩ :=
        ih rfl (hstep hP hrow) (by omega) (by omega)
      have hsub : loop - index = (loop - (index + 1)) + 1 := by omega
      refine ⟨.row u.row advances :: before, w, after, later', rfl, ?_, ?_, hw, ?_, ?_⟩
      · intro id hid
        rcases List.mem_cons.1 hid with hid | hid
        · cases hid
        · exact hbefore id hid
      · rw [List.length_cons, hlength, hsub]
      · rw [hsub]
        exact hrun
      · rw [hsub]
        exact hPw

/-- A row that a run reaches: the settings there are those that are asked for from it on, and those
that no cell changes are what they were. -/
structure Reached (job : Job) (rows : List Row) (first : Nat) (asked : List (Row × Settings))
    (index : Nat) (rest : List Row) (v : Voice) : Prop where
  le : first ≤ index
  mem : ∀ row ∈ rest, row ∈ rows
  settings : asked.drop (index - first) = settingRows job.channel v.wanted.settings rest
  steady : Steady (cellsOf rows) v.told v.wanted.settings

section Heard

variable (hk : job.kernel = .extended) (hc : job.channel ≠ .dpcm)
include hk hc

/-- **The rows of a run are played as the song asks for**, whatever state the driver begins them
with, if it has what it was told. -/
theorem Runs.heard {index : Nat} {rest : List Row} {later : List (Option UInt8)} {v v' : Voice}
    {pieces : List Piece} (h : Runs job rows speeds loopAt index rest later v pieces v')
    (hv : v.row = []) (ht : v'.tables.Extends t) (hsound : t.Sound)
    (hd : Hears t job v.told v.wanted d) :
    List.Forall₂ (RowTuned t job) (settingRows job.channel v.wanted.settings rest)
        (tracePieces job.channel d pieces) ∧
      Hears t job v'.told v'.wanted (afterPieces d pieces) := by
  induction h generalizing d with
  | nil => exact ⟨.nil, hd⟩
  | @cons index row rest later v u v' advances more hrow hmore ih =>
    have hrow' : (marked job rows speeds loopAt index v).2.row = [] := by rw [row_marked, hv]
    have hplays := Voice.plays_processRow hrow' hrow
    have hu : u.tables.Extends t := (hmore.tables rfl).trans ht
    obtain ⟨hs, hanswers, -, hheard⟩ := Voice.answers_processRow hk hc hrow hu
    rw [wanted_marked] at hs
    have hstart : (marked job rows speeds loopAt index v).2.Heard t job d := by
      rw [Voice.Heard, hrow']
      exact hears_marked hd
    have hend : Hears t job u.told u.wanted (d.after u.row) := hheard d hstart
    obtain ⟨hrest, hlast⟩ := ih rfl ht hend
    rw [tracePieces_marked, afterPieces_marked]
    refine ⟨?_, hlast⟩
    rw [tracePieces, hplays.trace hrow' d, settingRows, ← hs]
    exact .cons ⟨rfl, fun note hn => (hanswers note hn).tuned hend hsound⟩ hrest

/-- What no cell of the channel changes stays what it was throughout a run. -/
theorem Runs.steady {index : Nat} {rest : List Row} {later : List (Option UInt8)} {v v' : Voice}
    {pieces : List Piece} (h : Runs job rows speeds loopAt index rest later v pieces v')
    (hv : v.row = []) (hrest : ∀ row ∈ rest, row ∈ rows)
    (hsteady : Steady (cellsOf rows) v.told v.wanted.settings) :
    Steady (cellsOf rows) v'.told v'.wanted.settings := by
  induction h with
  | nil => exact hsteady
  | @cons index row rest later v u v' advances more hrow hmore ih =>
    have hcells : ∀ n ∈ row.note, n ∈ cellsOf rows := fun n hn =>
      List.mem_filterMap.2 ⟨row, hrest row List.mem_cons_self, hn⟩
    obtain ⟨-, -, hst, -⟩ := Voice.answers_processRow hk hc hrow (.refl _)
    exact ih rfl (fun r hr => hrest r (List.mem_cons_of_mem _ hr))
      (hst _ hcells (steady_marked hsteady))

theorem Reached.next {first index : Nat} {asked : List (Row × Settings)} {row : Row}
    {rest : List Row} {speed : Option UInt8} {v u : Voice} {advances : Bool}
    (h : Reached job rows first asked index (row :: rest) v)
    (hrow : v.processRow job index row speed rest = .ok (u, advances)) :
    Reached job rows first asked (index + 1) rest { u with row := [] } := by
  have hcells : ∀ n ∈ row.note, n ∈ cellsOf rows := fun n hn =>
    List.mem_filterMap.2 ⟨row, h.mem row List.mem_cons_self, hn⟩
  obtain ⟨hs, -, hsteady, -⟩ := Voice.answers_processRow hk hc hrow (.refl _)
  refine ⟨by have := h.le; omega, fun r hr => h.mem r (List.mem_cons_of_mem _ hr), ?_,
    hsteady _ hcells h.steady⟩
  have hsub : index + 1 - first = (index - first) + 1 := by have := h.le; omega
  rw [hsub, ← List.drop_drop, h.settings, settingRows, ← hs]
  rfl

/-- At the loop mark the settings are those of the rows in front of it. -/
theorem Runs.split {loop index : Nat} {rest : List Row} {later : List (Option UInt8)}
    {v v' : Voice} {pieces : List Piece}
    (h : Runs job rows speeds (some loop) index rest later v pieces v') (hv : v.row = [])
    (hrest : ∀ row ∈ rest, row ∈ rows)
    (hsteady : Steady (cellsOf rows) v.told v.wanted.settings)
    (hi : index ≤ loop) (hloop : loop < index + rest.length) :
    ∃ before w after later',
      pieces = before ++ (markLoop job rows speeds w).1 :: after ∧
      (∀ id, .mark id ∉ before) ∧ w.row = [] ∧
      Runs job rows speeds none loop (rest.drop (loop - index)) later'
        (markLoop job rows speeds w).2 after v' ∧
      (settingRows job.channel v.wanted.settings rest).drop (loop - index) =
        settingRows job.channel w.wanted.settings (rest.drop (loop - index)) ∧
      Steady (cellsOf rows) w.told w.wanted.settings := by
  have hstart : Reached job rows index (settingRows job.channel v.wanted.settings rest) index rest
      v := ⟨Nat.le_refl _, hrest, by rw [Nat.sub_self]; rfl, hsteady⟩
  obtain ⟨before, w, after, later', hpieces, hbefore, -, hw, hrun, hreached⟩ :=
    h.divide hv (fun hr hrow => hr.next hk hc hrow) hstart hi hloop
  exact ⟨before, w, after, later', hpieces, hbefore, hw, hrun, hreached.settings,
    hreached.steady⟩

/-! ## Passes -/

/-- The passes of a loop, if the driver hears the voice at its end. -/
theorem Runs.passes {index : Nat} {rest : List Row} {later : List (Option UInt8)} {w v' : Voice}
    {after : List Piece}
    (h : Runs job rows speeds none index rest later (markLoop job rows speeds w).2 after v')
    (hw : w.row = []) (ht : v'.tables.Extends t) (hsound : t.Sound)
    (hsteady : Steady (cellsOf rows) w.told w.wanted.settings)
    (hsteady' : Steady (cellsOf rows) v'.told v'.wanted.settings) (jumps : Nat)
    (hd : Hears t job v'.told v'.wanted d) :
    List.Forall₂ (RowTuned t job)
      (List.replicate jumps (settingRows job.channel w.wanted.settings rest)).flatten
      (Driver.passes job.channel (join job.kernel {} after) jumps d) := by
  induction jumps generalizing d with
  | zero => exact .nil
  | succ jumps ih =>
    have hagain : Hears t job (markLoop job rows speeds w).2.told w.wanted d :=
      hsteady.hears_again hsteady' hd
    obtain ⟨hpass, hend⟩ := h.heard hk hc hw ht hsound hagain
    rw [List.replicate_succ, List.flatten_cons, Driver.passes, trace_join, after_join]
    exact List.rel_append hpass (ih hend)

/-- Rows that a driver plays: all rows, and the rows of the loop once more for every jump. -/
def passRows {α : Type} (loopAt : Option Nat) (jumps : Nat) (rows : List α) : List α :=
  rows ++ match loopAt with
    | none => []
    | some loop => (List.replicate jumps (rows.drop loop)).flatten

/-- **On every pass the settings of the driver are those that the song asks for.** The rows played
are those of the song, with the rows of the loop once more for every jump, and the settings asked
for are those of the cells from the start of the song, the same for every pass. The tables of a new
compile are sound (`Tables.sound_default`), and they stay so. The numbers by which the stream names
curves are of 32 bits as long as the tables have at most 2^32 names. -/
theorem generate_settings {u t : Tables} {tokens : List Token} (hu : u.Sound)
    (h : generate job u = (.ok tokens, t)) :
    t.Sound ∧
    (t.symbols.names.size ≤ UInt32.size →
      ∀ i ∈ disassemble job.kernel tokens, i.Numbered UInt32.size) ∧
    ∃ rows, job.song.rows (job.song.track job.channel) = .ok rows ∧ ∀ jumps,
      List.Forall₂ (RowTuned t job)
        (passRows (loopRow job.song rows {}).1 jumps (settingRows job.channel {} rows))
        (Driver.play job.channel (disassemble job.kernel tokens) jumps {}
          (disassemble job.kernel tokens)) := by
  obtain ⟨rows, speeds, loopAt, pieces, v, hrows, -, hloopAt, hruns, htokens, rfl⟩ :=
    generate_ok h
  have ht : v.tables.Extends (ending job loopAt v).tables := extends_ending v
  have hsound : (ending job loopAt v).tables.Sound := (extends_generate h).sound hu
  refine ⟨hsound, generate_words h, rows, hrows, fun jumps => ?_⟩
  obtain ⟨hplayed, hend⟩ := hruns.heard hk hc rfl ht hsound (hears_opening rows u)
  rw [disassemble_encodeAll (hruns.hasOperands rfl v) htokens,
    loopRow_log job.song rows {} (Voice.start job u).tables.log, ← hloopAt]
  cases hl : loopAt with
  | none =>
    subst hl
    rw [lastInstruction, Driver.play_halt (hruns.straight rfl job.kernel), trace_join, passRows,
      List.append_nil]
    exact hplayed
  | some loop =>
    subst hl
    have hlt : loop < rows.length := loopRow_lt hloopAt.symm
    obtain ⟨before, w, after, later, hpieces, hbefore, hw, hloop, hdrop, hsteady⟩ :=
      hruns.split hk hc rfl (fun _ hr => hr) (steady_opening rows u) (Nat.zero_le _) (by omega)
    have hsteady' := hruns.steady hk hc rfl (fun _ hr => hr) (steady_opening rows u)
    have hdrop' : (settingRows job.channel {} rows).drop loop =
        settingRows job.channel w.wanted.settings (rows.drop loop) := hdrop
    rw [hruns.play_loop rfl hpieces hbefore hw hloop jumps, passRows]
    simp only [hdrop']
    exact List.rel_append hplayed
      (hloop.passes hk hc hw ht hsound hsteady hsteady' jumps hend)

end Heard

/-- The tune has its settings on every pass. -/
theorem generate_settings_loopedTune :
    (loopedTune.kernel = .extended ∧ loopedTune.channel ≠ .dpcm ∧ ({} : Tables).Sound) ∧
    ∃ tokens t, generate loopedTune {} = (.ok tokens, t) ∧
      t.Sound ∧ (∀ i ∈ disassemble .extended tokens, i.Numbered UInt32.size) ∧
      ∃ rows, loopedTune.song.rows (loopedTune.song.track loopedTune.channel) =
        .ok rows ∧ ∀ jumps,
      List.Forall₂ (RowTuned t loopedTune)
        (passRows (loopRow loopedTune.song rows {}).1 jumps (settingRows .square1 {} rows))
        (Driver.play .square1 (disassemble .extended tokens) jumps {}
          (disassemble .extended tokens)) := by
  have hk : loopedTune.kernel = .extended := rfl
  have hc : loopedTune.channel ≠ .dpcm := by decide
  obtain ⟨tokens, t, h⟩ := generate_loopedTune
  have hnames : (generate loopedTune {}).2.symbols.names.size ≤ UInt32.size := by decide +kernel
  rw [h] at hnames
  obtain ⟨hsound, hwords, hplayed⟩ := generate_settings hk hc Tables.sound_default h
  exact ⟨⟨hk, hc, Tables.sound_default⟩, tokens, t, h, hsound, hwords hnames, hplayed⟩

end Chiptune.Stream
