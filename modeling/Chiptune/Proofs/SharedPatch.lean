import Chiptune.Compile
import Chiptune.Proofs.PatchLoads
import Chiptune.Proofs.Slots
import Mathlib.Data.List.Range
import Mathlib.Tactic.Choose

/-!
# The registers that the FM channels share

The FM channels of a song load their custom patches into one set of registers (`registers`). Before
each row, where a channel has told the driver a custom instrument and the timeline has no other load
since, the registers are those of the instrument (`Ensemble.Intact`). This holds at the loop mark
for every content of the registers (`Ensemble.intact_mark`), and every row keeps it
(`Ensemble.intact_next`).

* `registers_patch`: **every note with a custom instrument is played with its own patch**, on every
  pass of the loop.
-/

set_option autoImplicit false

namespace Chiptune

/-- Registers of a custom patch. -/
def InstrumentKind.patch? : InstrumentKind → Option (Vector UInt8 8)
  | vrc7 patch regs => if patch == 0 then some regs else none
  | _ => none

/-- Registers of the custom patch of an instrument. -/
def Project.patch? (p : Project) (i : Nat) : Option (Vector UInt8 8) :=
  p.instruments[i]?.bind (·.kind.patch?)

theorem InstrumentKind.isVrc7Custom_eq (kind : InstrumentKind) :
    kind.isVrc7Custom = kind.patch?.isSome := by
  cases kind with
  | vrc7 patch regs =>
    rw [isVrc7Custom, patch?]
    split <;> simp_all
  | _ => rfl

theorem Project.isCustom_iff {p : Project} {i : Nat} :
    p.isCustom i = true ↔ ∃ patch, p.patch? i = some patch := by
  rw [← Option.isSome_iff_exists, isCustom, patch?]
  cases p.instruments[i]? with
  | none => simp
  | some instrument => simp [InstrumentKind.isVrc7Custom_eq]

namespace Stream

open PatchTimeline

/-! ## The shared registers -/

/-- Registers behind the load of a slot: those of the custom patch of its instrument, if it has one.
-/
def loadSlot (p : Project) (slots : Slots) (regs : Vector UInt8 8) (slot : Nat) :
    Vector UInt8 8 :=
  (slots.extended[slot]?.bind p.patch?).getD regs

/-- Registers behind a row on which the channels load some slots, one channel after the other. -/
def loadRow (p : Project) (slots : Slots) (regs : Vector UInt8 8) (loads : List (List Nat)) :
    Vector UInt8 8 :=
  loads.foldl (fun regs channel => channel.foldl (loadSlot p slots) regs) regs

/-- Registers behind a number of rows, given the slots that each stream loads row by row. -/
def registers (p : Project) (slots : Slots) (start : Vector UInt8 8)
    (streams : List (List (List Nat))) : Nat → Vector UInt8 8
  | 0 => start
  | row + 1 =>
    loadRow p slots (registers p slots start streams row) (streams.map (·.getD row []))

/-- If every step keeps the state or gives `r`, and one of them gives `r`, all of them do. -/
theorem foldl_reaches {α β : Type} {f : β → α → β} {xs : List α} {r : β}
    (h : ∀ x ∈ xs, ∀ b, f b x = b ∨ f b x = r) {b : β} (hr : b = r ∨ ∃ x ∈ xs, ∀ b, f b x = r) :
    xs.foldl f b = r := by
  induction xs generalizing b with
  | nil => simpa using hr
  | cons x xs ih =>
    refine ih (fun y hy => h y (List.mem_cons_of_mem _ hy)) ?_
    rcases hr with rfl | ⟨y, hy, hreach⟩
    · left
      rcases h x List.mem_cons_self b with hx | hx <;> exact hx
    · rcases List.mem_cons.1 hy with rfl | hy
      · exact .inl (hreach b)
      · exact .inr ⟨y, hy, hreach⟩

/-! ## What is overwritten -/

variable {timeline : PatchTimeline}

/-- The loads of one more row. -/
theorem overwritten_succ {i since index : Nat} (h : since < index) :
    timeline.overwritten i (some since) (index + 1) =
      match (timeline.loads.getD index []).getLast? with
      | some j => j != i
      | none => timeline.overwritten i (some since) index := by
  simp only [overwritten]
  by_cases hsize : index < timeline.loads.size
  · rw [Nat.min_eq_left (by omega), Nat.min_eq_left (by omega), lastLoad, if_neg (by omega)]
    cases (timeline.loads.getD index []).getLast? <;> rfl
  · have hnone : timeline.loads.getD index [] = [] := by simp [hsize]
    rw [Nat.min_eq_right (by omega), Nat.min_eq_right (by omega), hnone]
    rfl

/-! ## One row -/

section

variable {job : Job} {rows : List Row} {loopAt : Option Nat} {index : Nat}

/-- Instrument that a channel plays on a row. -/
def playedAt (job : Job) (rows : List Row) (loopAt : Option Nat) (index : Nat) : Option Nat :=
  rows[index]?.bind ((held job rows loopAt index).played job)

/-- Instrument that a channel is sent on a row. -/
def sentAt (job : Job) (rows : List Row) (loopAt : Option Nat) (index : Nat) : Option Nat :=
  (playedAt job rows loopAt index).filter ((held job rows loopAt index).isDue job index)

theorem getD_sentRows (job : Job) (rows : List Row) (loopAt : Option Nat) (index : Nat) :
    (sentRows job rows loopAt).getD index [] =
      ((sentAt job rows loopAt index).bind job.slots.slot).toList := by
  rw [sentRows, List.getD_eq_getElem?_getD, List.getElem?_mapIdx, sentAt, playedAt]
  cases rows[index]? <;> rfl

/-- What is known behind a row on which a channel plays an instrument. -/
theorem held_of_played {i : Nat} (h : playedAt job rows loopAt index = some i) :
    held job rows loopAt (index + 1) =
      ((held job rows loopAt index).use job index i).mark loopAt (index + 1) := by
  obtain ⟨row, hrow, hplayed⟩ := Option.bind_eq_some_iff.1 h
  rw [held_succ hrow, Holding.take_of_some hplayed]

/-- A row without an instrument tells nothing. -/
theorem held_of_silent (h : playedAt job rows loopAt index = none) :
    held job rows loopAt (index + 1) = (held job rows loopAt index).mark loopAt (index + 1) := by
  cases hrow : rows[index]? with
  | none => rw [held, hrow]; rfl
  | some row =>
    rw [playedAt, hrow] at h
    rw [held_succ hrow, Holding.take_of_none h]

end

/-- The load of an instrument at its slot. -/
theorem foldl_loadSlot {p : Project} {slots : Slots} {sent : Option Nat}
    (h : ∀ i, sent = some i → ∃ slot, slots.slot i = some slot ∧ slots.extended[slot]? = some i)
    (regs : Vector UInt8 8) :
    (sent.bind slots.slot).toList.foldl (loadSlot p slots) regs =
      (sent.bind p.patch?).getD regs := by
  cases sent with
  | none => rfl
  | some i =>
    obtain ⟨slot, hslot, hi⟩ := h i rfl
    simp [hslot, loadSlot, hi]

/-- Channels whose streams are written for one timeline: it lists the custom instruments that they
play, and they agree on every row. -/
structure Ensemble (p : Project) (slots : Slots) (timeline : PatchTimeline)
    (channels : List Channel) (job : Channel → Job) (rows : Channel → List Row)
    (loopAt : Option Nat) : Prop where
  project_eq : ∀ c ∈ channels, (job c).project = p
  slots_eq : ∀ c ∈ channels, (job c).slots = slots
  patches_eq : ∀ c ∈ channels, (job c).patches = some timeline
  hasSlot : ∀ c ∈ channels, ∀ index i, playedAt (job c) (rows c) loopAt index = some i →
    ∃ slot, slots.slot i = some slot ∧ slots.extended[slot]? = some i
  lists : ∀ index i, i ∈ timeline.loads.getD index [] ↔
    ∃ c ∈ channels, playedAt (job c) (rows c) loopAt index = some i ∧ p.isCustom i = true
  agree : ∀ index, disagree (timeline.loads.getD index []) = false

namespace Ensemble

variable {p : Project} {slots : Slots} {channels : List Channel} {job : Channel → Job}
  {rows : Channel → List Row} {loopAt : Option Nat}

/-- Registers behind a row of the channels. -/
def after (p : Project) (slots : Slots) (channels : List Channel) (job : Channel → Job)
    (rows : Channel → List Row) (loopAt : Option Nat) (index : Nat) (regs : Vector UInt8 8) :
    Vector UInt8 8 :=
  loadRow p slots regs (channels.map fun c => (sentRows (job c) (rows c) loopAt).getD index [])

/-- Before a row the registers are those of every custom instrument that a channel has told the
driver, unless the timeline has another load since. -/
def Intact (p : Project) (timeline : PatchTimeline) (channels : List Channel) (job : Channel → Job)
    (rows : Channel → List Row) (loopAt : Option Nat) (index : Nat) (regs : Vector UInt8 8) :
    Prop :=
  ∀ c ∈ channels, ∀ i patch, p.patch? i = some patch →
    (held (job c) (rows c) loopAt index).told = some i →
    ∃ since, (held (job c) (rows c) loopAt index).lastPatchRow = some since ∧ since < index ∧
      (timeline.overwritten i (some since) index = false → regs = patch)

/-- **Behind the loop mark nothing is known**, so every content of the registers will do. -/
theorem intact_mark {index : Nat} (h : index = 0 ∨ loopAt = some index) (regs : Vector UInt8 8) :
    Intact p timeline channels job rows loopAt index regs := by
  have hnone : ∀ c, (held (job c) (rows c) loopAt index).told = none := by
    intro c
    rcases h with rfl | h
    · rw [held, Holding.mark]
      split <;> rfl
    · cases index <;> simp [held, Holding.mark, h]
  intro c _ i patch _ htold
  rw [hnone c] at htold
  cases htold

variable (h : Ensemble p slots timeline channels job rows loopAt)
include h

/-- The channels load the patches of the instruments that they are sent. -/
theorem after_eq (index : Nat) (regs : Vector UInt8 8) :
    after p slots channels job rows loopAt index regs = channels.foldl (fun regs c =>
      ((sentAt (job c) (rows c) loopAt index).bind p.patch?).getD regs) regs := by
  rw [after, loadRow, List.foldl_map]
  refine List.foldl_ext _ _ _ fun regs c hc => ?_
  rw [getD_sentRows, h.slots_eq c hc]
  exact foldl_loadSlot (fun i hi => h.hasSlot c hc index i (Option.filter_eq_some_iff.1 hi).1) regs

/-- A custom instrument that a channel is sent is one that the timeline has. -/
theorem mem_of_sent {c : Channel} {index i : Nat} {patch : Vector UInt8 8} (hc : c ∈ channels)
    (hs : sentAt (job c) (rows c) loopAt index = some i) (hp : p.patch? i = some patch) :
    i ∈ timeline.loads.getD index [] :=
  (h.lists index i).2 ⟨c, hc, (Option.filter_eq_some_iff.1 hs).1, Project.isCustom_iff.2 ⟨_, hp⟩⟩

/-- A row for which the timeline has nothing keeps the registers. -/
theorem after_of_empty {index : Nat} (hempty : timeline.loads.getD index [] = [])
    (regs : Vector UInt8 8) : after p slots channels job rows loopAt index regs = regs := by
  rw [h.after_eq]
  refine foldl_reaches (fun c hc regs => .inl ?_) (.inl rfl)
  cases hs : sentAt (job c) (rows c) loopAt index with
  | none => rfl
  | some i =>
    cases hp : p.patch? i with
    | none => rw [Option.bind_some, hp]; rfl
    | some patch =>
      have hmem := h.mem_of_sent hc hs hp
      rw [hempty] at hmem
      cases hmem

/-- **A custom instrument is played with its patch**: the channel is sent the instrument, or the
registers are still those of its last load, and the other channels load nothing else. -/
theorem after_of_played {index i : Nat} {regs patch : Vector UInt8 8} {c : Channel}
    (hintact : Intact p timeline channels job rows loopAt index regs) (hc : c ∈ channels)
    (hplayed : playedAt (job c) (rows c) loopAt index = some i) (hp : p.patch? i = some patch) :
    after p slots channels job rows loopAt index regs = patch := by
  have hcustom := Project.isCustom_iff.2 ⟨_, hp⟩
  have hmem : i ∈ timeline.loads.getD index [] := (h.lists index i).2 ⟨c, hc, hplayed, hcustom⟩
  rw [h.after_eq]
  refine foldl_reaches (fun d hd regs => ?_) ?_
  · cases hs : sentAt (job d) (rows d) loopAt index with
    | none => exact .inl rfl
    | some j =>
      cases hj : p.patch? j with
      | none => exact .inl (by rw [Option.bind_some, hj]; rfl)
      | some other =>
        obtain rfl := eq_of_disagree (h.agree index) (h.mem_of_sent hd hs hj) hmem
        exact .inr (by rw [Option.bind_some, hp]; rfl)
  · by_cases hdue : (held (job c) (rows c) loopAt index).isDue (job c) index i = true
    · refine .inr ⟨c, hc, fun regs => ?_⟩
      rw [sentAt, hplayed, Option.filter, if_pos hdue, Option.bind_some, hp]
      rfl
    · left
      rw [Holding.isDue, h.project_eq c hc, hcustom, h.patches_eq c hc] at hdue
      simp only [Option.any_some, Bool.true_and, Bool.or_eq_true, not_or, bne_iff_ne,
        Classical.not_not, Bool.not_eq_true] at hdue
      obtain ⟨htold, hkept⟩ := hdue
      obtain ⟨since, hsince, -, hregs⟩ := hintact c hc i patch hp htold
      rw [hsince] at hkept
      exact hregs hkept

/-- **Every row keeps the invariant.** -/
theorem intact_next {index : Nat} {regs : Vector UInt8 8}
    (hintact : Intact p timeline channels job rows loopAt index regs) :
    Intact p timeline channels job rows loopAt (index + 1)
      (after p slots channels job rows loopAt index regs) := by
  intro c hc i patch hp htold
  by_cases hmark : loopAt = some (index + 1)
  · exact intact_mark (.inr hmark) _ c hc i patch hp htold
  have hunmarked : ∀ k : Holding, k.mark loopAt (index + 1) = k := fun k => by
    rw [Holding.mark, if_neg hmark]
  cases hplayed : playedAt (job c) (rows c) loopAt index with
  | some j =>
    rw [held_of_played hplayed, hunmarked] at htold ⊢
    obtain rfl : j = i := Option.some.inj htold
    have hcustom : (job c).project.isCustom j = true := by
      rw [h.project_eq c hc]
      exact Project.isCustom_iff.2 ⟨_, hp⟩
    refine ⟨index, by rw [Holding.use, hcustom]; rfl, Nat.lt_succ_self _, fun _ => ?_⟩
    exact h.after_of_played hintact hc hplayed hp
  | none =>
    rw [held_of_silent hplayed, hunmarked] at htold ⊢
    obtain ⟨since, hsince, hlt, hregs⟩ := hintact c hc i patch hp htold
    refine ⟨since, hsince, by omega, fun hkept => ?_⟩
    rw [overwritten_succ hlt] at hkept
    cases hlast : (timeline.loads.getD index []).getLast? with
    | none =>
      rw [hlast] at hkept
      rw [h.after_of_empty (List.getLast?_eq_none_iff.1 hlast)]
      exact hregs hkept
    | some j =>
      rw [hlast] at hkept
      obtain rfl : j = i := by simpa using hkept
      obtain ⟨d, hd, hother, -⟩ := (h.lists index j).1 (List.mem_of_getLast? hlast)
      exact h.after_of_played hintact hd hother hp

end Ensemble

/-! ## Passes -/

theorem passRows_map {α β : Type} (f : α → β) (loopAt : Option Nat) (jumps : Nat) (xs : List α) :
    passRows loopAt jumps (xs.map f) = (passRows loopAt jumps xs).map f := by
  cases loopAt <;> simp [passRows, List.map_flatten, List.map_drop]

/-- The rows that are played are found by their indices. -/
theorem getElem?_passRows {α : Type} (loopAt : Option Nat) (jumps : Nat) (xs : List α) (k : Nat) :
    (passRows loopAt jumps xs)[k]? =
      (passRows loopAt jumps (List.range xs.length))[k]?.bind (xs[·]?) := by
  have hxs : xs.map some = (List.range xs.length).map (xs[·]?) := by
    apply List.ext_getElem <;> simp
  have hrows := congrArg (passRows loopAt jumps) hxs
  rw [passRows_map, passRows_map] at hrows
  have hk := congrArg (fun rows => rows[k]?.bind id) hrows
  simpa [Option.bind_map] using hk

/-- A stretch that may follow everything may be repeated. -/
theorem isChain_repeat {α : Type} {R : α → α → Prop} {xs : List α} (hchain : xs.IsChain R)
    (hhead : ∀ x ∈ xs.head?, ∀ y, R y x) (count : Nat) :
    (List.replicate count xs).flatten.IsChain R ∧
      ∀ x ∈ (List.replicate count xs).flatten.head?, ∀ y, R y x := by
  induction count with
  | zero => simp
  | succ count ih =>
    obtain ⟨hrest, hfirst⟩ := ih
    rw [List.replicate_succ, List.flatten_cons]
    refine ⟨List.isChain_append.2 ⟨hchain, hrest, fun y _ x hx => hfirst x hx y⟩, fun x hx => ?_⟩
    cases xs with
    | nil => exact hfirst x hx
    | cons a xs => exact hhead x hx

/-- **A row that is played stands behind the last one or behind the loop mark.** -/
theorem isChain_passRows (loopAt : Option Nat) (jumps count : Nat) :
    (passRows loopAt jumps (List.range count)).IsChain fun n m => m = n + 1 ∨ loopAt = some m := by
  have hrange : (List.range count).IsChain fun n m => m = n + 1 ∨ loopAt = some m :=
    (List.isChain_range _ _).2 fun _ _ => .inl rfl
  cases hl : loopAt with
  | none =>
    rw [passRows, List.append_nil]
    exact hl ▸ hrange
  | some loop =>
    have hloop : ∀ n ∈ ((List.range count).drop loop).head?, n = loop := by
      intro n hn
      rw [List.head?_drop] at hn
      obtain ⟨_, hn⟩ := List.getElem?_eq_some_iff.1 hn
      simpa using hn.symm
    rw [hl] at hrange
    obtain ⟨hrest, hfirst⟩ := isChain_repeat (hrange.drop loop)
      (fun n hn m => .inr (congrArg some (hloop n hn).symm)) jumps
    rw [passRows]
    exact List.isChain_append.2 ⟨hrange, hrest, fun m _ n hn => hfirst n hn m⟩

/-- The first row that is played is the first row of the song. -/
theorem head?_passRows {loopAt : Option Nat} {jumps count n : Nat}
    (h : (passRows loopAt jumps (List.range count))[0]? = some n) : n = 0 := by
  cases count with
  | zero => cases loopAt <;> simp [passRows] at h
  | succ count => simpa [passRows, List.range_succ_eq_map] using h.symm

namespace Ensemble

variable {p : Project} {slots : Slots} {channels : List Channel} {job : Channel → Job}
  {rows : Channel → List Row} {loopAt : Option Nat} {count : Nat}
  (hlength : ∀ c ∈ channels, (rows c).length = count)

include hlength in
/-- The registers behind a row that is played, on any pass. -/
theorem registers_succ {jumps k index : Nat} (start : Vector UInt8 8)
    (hk : (passRows loopAt jumps (List.range count))[k]? = some index) :
    let streams := channels.map fun c =>
      passRows loopAt jumps (sentRows (job c) (rows c) loopAt)
    registers p slots start streams (k + 1) =
      after p slots channels job rows loopAt index (registers p slots start streams k) := by
  have hstream : ∀ c ∈ channels,
      (passRows loopAt jumps (sentRows (job c) (rows c) loopAt)).getD k [] =
        (sentRows (job c) (rows c) loopAt).getD index [] := by
    intro c hc
    have hsent : (sentRows (job c) (rows c) loopAt).length = count := by
      rw [sentRows, List.length_mapIdx, hlength c hc]
    rw [List.getD_eq_getElem?_getD, getElem?_passRows, hsent, hk]
    rfl
  intro streams
  have hloads : streams.map (·.getD k []) =
      channels.map fun c => (sentRows (job c) (rows c) loopAt).getD index [] := by
    rw [List.map_map]
    exact List.map_congr_left hstream
  rw [registers, hloads, after]

include hlength in
/-- **The invariant holds before every row that is played.** -/
theorem intact_registers (h : Ensemble p slots timeline channels job rows loopAt) {jumps : Nat}
    (start : Vector UInt8 8) {k index : Nat}
    (hk : (passRows loopAt jumps (List.range count))[k]? = some index) :
    Intact p timeline channels job rows loopAt index (registers p slots start
      (channels.map fun c => passRows loopAt jumps (sentRows (job c) (rows c) loopAt)) k) := by
  induction k generalizing index with
  | zero => exact intact_mark (.inl (head?_passRows hk)) _
  | succ k ih =>
    obtain ⟨hlt, hindex⟩ := List.getElem?_eq_some_iff.1 hk
    have hbefore : (passRows loopAt jumps (List.range count))[k]? =
        some (passRows loopAt jumps (List.range count))[k] := List.getElem?_eq_getElem (by omega)
    have hnext := List.isChain_iff_getElem.1 (isChain_passRows loopAt jumps count) k hlt
    rw [hindex] at hnext
    rcases hnext with rfl | hmark
    · rw [registers_succ hlength start hbefore]
      exact h.intact_next (ih hbefore)
    · exact intact_mark (.inr hmark) _

end Ensemble

/-! ## Songs -/

/-- A note with a custom instrument is one on which the instrument is played. -/
theorem hasCustom_iff {job : Job} {rows : List Row} (loopAt : Option Nat)
    (hc : job.channel.instrumentTable.isSome = true)
    (hrows : job.song.rows (job.song.track job.channel) = .ok rows) (index i : Nat) :
    HasCustom job.project job.song index job.channel i ↔
      playedAt job rows loopAt index = some i ∧ job.project.isCustom i = true := by
  constructor
  · rintro ⟨rows', row, hrows', hrow, hpitched, hi, hcustom⟩
    obtain rfl := Except.ok.inj (hrows.symm.trans hrows')
    refine ⟨?_, hcustom⟩
    rw [playedAt, hrow, Option.bind_some, played_held hc hrow hpitched, hi]
  · rintro ⟨hplayed, hcustom⟩
    obtain ⟨row, hrow, hplayed⟩ := Option.bind_eq_some_iff.1 hplayed
    have hpitched : row.note.any isPitched = true := by
      by_contra hsilent
      rw [Holding.played_of_silent (by simpa using hsilent)] at hplayed
      cases hplayed
    rw [played_held hc hrow hpitched] at hplayed
    exact ⟨rows, row, hrows, hrow, hpitched, hplayed, hcustom⟩

/-- Instruments that fit an FM channel live in the extended table. -/
theorem table_of_fits {kind : InstrumentKind} {c : Channel} (hc : c.isVrc7 = true)
    (h : kind.fits c = true) : kind.table = .extended := by
  have hexpansion : c.expansion = some .vrc7 := by
    cases c <;> first | rfl | cases hc
  simp only [InstrumentKind.fits, Bool.and_eq_true, beq_iff_eq, hexpansion] at h
  rw [InstrumentKind.table, h.2]

/-- The timeline of a song lists the notes with custom instruments of its FM channels. -/
def Lists (p : Project) (song : Song) (timeline : PatchTimeline) : Prop :=
  ∀ index i, i ∈ timeline.loads.getD index [] ↔
    ∃ c ∈ p.channels.filter Channel.isVrc7, HasCustom p song index c i

/-- The timeline lists them if cells name instruments only with a pitch. -/
theorem lists_of_pitched {p : Project} {song : Song} {timeline : PatchTimeline} {log log' : Log}
    (hbuild : build p song log = .ok (timeline, log'))
    (hrows : ∀ c ∈ p.channels.filter Channel.isVrc7, ∃ rows,
      song.rows (song.track c) = .ok rows ∧
        ∀ n ∈ cellsOf rows, n.instrument.isSome = true → isPitched n = true) :
    Lists p song timeline := by
  intro index i
  rw [loads_build hbuild index, List.mem_flatMap]
  refine exists_congr fun c => and_congr_right fun hc => ?_
  obtain ⟨rows, hrows, hpitched⟩ := hrows c hc
  have hcells : ∀ n ∈ cellsOf (rows.take (index + 1)), n ∈ cellsOf rows := fun n hn =>
    ((List.take_sublist _ _).filterMap _).subset hn
  have hagree : named (fun _ => true) none (cellsOf (rows.take (index + 1))) =
      named isPitched none (cellsOf (rows.take (index + 1))) :=
    named_congr (fun n hn hi => (hpitched n (hcells n hn) hi).symm) none
  rw [Option.mem_toList]
  exact loadAt_iff hrows hagree i

/-- The slots that a channel loads, where all channels of its song have the same rows. -/
theorem sends_channel {job : Job} {t t' : Tables} {tokens : List Token} {loopAt : Option Nat}
    {count : Nat} (h : generate job t = (.ok tokens, t'))
    (hloop : ∀ rows, job.song.rows (job.song.track job.channel) = .ok rows →
      (loopRow job.song rows {}).1 = loopAt ∧ rows.length = count) :
    ∃ rows, job.song.rows (job.song.track job.channel) = .ok rows ∧ rows.length = count ∧
      (∀ jumps, Driver.playEvents Instruction.loads (disassemble job.kernel tokens) jumps []
        (disassemble job.kernel tokens) = passRows loopAt jumps (sentRows job rows loopAt)) ∧
      ∀ index i, playedAt job rows loopAt index = some i → HasSlot job i := by
  obtain ⟨rows, -, -, -, -, hrows, -⟩ := generate_ok h
  obtain ⟨rfl, hcount⟩ := hloop rows hrows
  obtain ⟨hplay, hslots⟩ := generate_loads h hrows
  refine ⟨rows, hrows, hcount, hplay, fun index i hi => ?_⟩
  obtain ⟨row, hrow, hplayed⟩ := Option.bind_eq_some_iff.1 hi
  exact hslots index row hrow i hplayed

section

variable {o : Options} {p : Project} {slots : Slots} {arpeggios : List Nat} {index : Nat}
  {song : Song} {timeline : PatchTimeline} {log log' : Log} {tokens : Channel → List Token}
  (hslots : Slots.assign p o.kernel log = (slots, log))
  (hbuild : build p song log' = .ok (timeline, log')) (hlists : Lists p song timeline)
  (hgenerate : ∀ c ∈ p.channels.filter Channel.isVrc7, ∃ t t',
    generate (Compile.streamJob o p slots arpeggios index song (some timeline) c) t =
      (.ok (tokens c), t'))
include hslots hbuild hlists hgenerate

/-- The FM channels of a song are an ensemble. -/
theorem exists_ensemble {loopAt : Option Nat} {count : Nat}
    (hloop : ∀ c rows, song.rows (song.track c) = .ok rows →
      (loopRow song rows {}).1 = loopAt ∧ rows.length = count) :
    ∃ rows : Channel → List Row,
      Ensemble p slots timeline (p.channels.filter Channel.isVrc7)
        (Compile.streamJob o p slots arpeggios index song (some timeline)) rows loopAt ∧
      ∀ c ∈ p.channels.filter Channel.isVrc7, song.rows (song.track c) = .ok (rows c) ∧
        (rows c).length = count ∧
        ∀ jumps, Driver.playEvents Instruction.loads (disassemble o.kernel (tokens c)) jumps []
            (disassemble o.kernel (tokens c)) =
          passRows loopAt jumps (sentRows (Compile.streamJob o p slots arpeggios index song
            (some timeline) c) (rows c) loopAt) := by
  let job := Compile.streamJob o p slots arpeggios index song (some timeline)
  have hvrc7 : ∀ c ∈ p.channels.filter Channel.isVrc7, c.isVrc7 = true := fun c hc =>
    (List.mem_filter.1 hc).2
  have hsends : ∀ c ∈ p.channels.filter Channel.isVrc7, ∃ rows,
      song.rows (song.track c) = .ok rows ∧ rows.length = count ∧
        (∀ jumps, Driver.playEvents Instruction.loads (disassemble o.kernel (tokens c)) jumps []
          (disassemble o.kernel (tokens c)) =
            passRows loopAt jumps (sentRows (job c) rows loopAt)) ∧
        ∀ index i, playedAt (job c) rows loopAt index = some i → HasSlot (job c) i := by
    intro c hc
    obtain ⟨t, t', h⟩ := hgenerate c hc
    exact sends_channel h fun rows hrows => hloop c rows hrows
  choose! rows hrows hlength hplay hhas using hsends
  refine ⟨rows, ⟨fun _ _ => rfl, fun _ _ => rfl, fun _ _ => rfl, ?_, ?_, disagree_build hbuild⟩,
    fun c hc => ⟨hrows c hc, hlength c hc, hplay c hc⟩⟩
  · intro c hc index i hi
    obtain ⟨instrument, slot, hinstrument, hfits, hslot⟩ := hhas c hc index i hi
    have hnamed := Slots.assign_table hslots hinstrument hslot
    rw [table_of_fits (hvrc7 c hc) hfits] at hnamed
    exact ⟨slot, hslot, hnamed⟩
  · intro index i
    rw [hlists index i]
    refine exists_congr fun c => and_congr_right fun hc => ?_
    exact @hasCustom_iff (job c) _ loopAt (instrumentTable_of_isVrc7 (hvrc7 c hc)) (hrows c hc)
      index i

/-- **Every note with a custom instrument is played with its patch**, whatever the registers hold
when the song starts, on every pass of the loop: behind each row that is played they are those of
every custom instrument that a channel plays there. -/
theorem registers_patch :
    ∀ c ∈ p.channels.filter Channel.isVrc7, ∃ rows, song.rows (song.track c) = .ok rows ∧
      ∀ jumps start k n,
        (passRows (loopRow song rows {}).1 jumps (List.range rows.length))[k]? = some n →
        ∀ i, HasCustom p song n c i →
          p.patch? i = some (registers p slots start
            ((p.channels.filter Channel.isVrc7).map fun c =>
              Driver.playEvents Instruction.loads (disassemble o.kernel (tokens c)) jumps []
                (disassemble o.kernel (tokens c))) (k + 1)) := by
  intro c hc
  obtain ⟨t, t', h⟩ := hgenerate c hc
  obtain ⟨own, -, -, -, -, hown, -⟩ := generate_ok h
  refine ⟨own, hown, fun jumps start k n hk i hcustom => ?_⟩
  obtain ⟨rows, hensemble, hchannel⟩ := exists_ensemble hslots hbuild hlists hgenerate
    fun d rows hrows =>
      ⟨loopRow_eq hrows hown {} {}, (Song.length_rows hrows).trans (Song.length_rows hown).symm⟩
  have hstreams : ((p.channels.filter Channel.isVrc7).map fun c =>
      Driver.playEvents Instruction.loads (disassemble o.kernel (tokens c)) jumps []
        (disassemble o.kernel (tokens c))) = _ :=
    List.map_congr_left fun d hd => (hchannel d hd).2.2 jumps
  have hlength := fun d hd => (hchannel d hd).2.1
  have hplayed := (@hasCustom_iff (Compile.streamJob o p slots arpeggios index song (some timeline)
    c) _ (loopRow song own {}).1 (instrumentTable_of_isVrc7 (List.mem_filter.1 hc).2)
    (hchannel c hc).1 n i).1 hcustom
  obtain ⟨patch, hpatch⟩ := Project.isCustom_iff.1 hplayed.2
  have hintact := hensemble.intact_registers hlength start hk
  rw [hstreams, Ensemble.registers_succ hlength start hk,
    hensemble.after_of_played hintact hc hplayed.1 hpatch]
  exact hpatch

end

/-- A song in which two FM channels play custom instruments in turn, in a loop. -/
def duet : Song :=
  { name := "duet", length := 1, patternLength := 4, loopPoint := some 0
    tracks := [
      { channel := .vrc7Fm1
        patterns := [{ notes := [
          { row := 0, value := some (.pitch 40), instrument := some 0 },
          { row := 2, value := some (.pitch 41) }] }]
        order := [some 0] },
      { channel := .vrc7Fm2
        patterns := [{ notes := [{ row := 1, value := some (.pitch 52), instrument := some 1 }] }]
        order := [some 0] }] }

/-- A project with the song, two custom patches and a built-in one. -/
def duetProject : Project :=
  { expansions := { vrc7 := true }
    instruments := [
      { name := "one", kind := .vrc7 0 (Vector.replicate 8 1) },
      { name := "two", kind := .vrc7 0 (Vector.replicate 8 2) },
      { name := "flute", kind := .vrc7 4 (Vector.replicate 8 0) }]
    songs := [duet] }

/-- What an FM channel of the song is generated from. -/
def duetJob : Channel → Job :=
  Compile.streamJob {} duetProject (Slots.assign duetProject .extended {}).1 [] 0 duet
    (some ⟨#[[0], [1], [0], []]⟩)

/-- Stream of an FM channel of the song. -/
def duetTokens (c : Channel) : List Token := ((generate (duetJob c) {}).1.toOption).getD []

theorem generate_duet : ∀ c ∈ duetProject.channels.filter Channel.isVrc7, ∃ t t',
    generate (duetJob c) t = (.ok (duetTokens c), t') := by
  have hsome : ∀ c ∈ duetProject.channels.filter Channel.isVrc7,
      (generate (duetJob c) {}).1.toOption.isSome = true := by
    decide +kernel
  intro c hc
  obtain ⟨tokens, t, h⟩ := exists_of_generate (hsome c hc)
  refine ⟨{}, t, ?_⟩
  rw [duetTokens, h]
  rfl

theorem build_duet : build duetProject duet {} = .ok (⟨#[[0], [1], [0], []]⟩, {}) :=
  ok_of_toOption (by decide +kernel)

theorem lists_duet : Lists duetProject duet ⟨#[[0], [1], [0], []]⟩ := by
  have hany : ∀ c ∈ duetProject.channels.filter Channel.isVrc7,
      (duet.rows (duet.track c)).toOption.any (fun rows => (cellsOf rows).all fun n =>
        !n.instrument.isSome || isPitched n) = true := by
    decide +kernel
  refine lists_of_pitched build_duet fun c hc => ?_
  obtain ⟨rows, hrows, hcells⟩ := ok_of_any (hany c hc)
  refine ⟨rows, hrows, fun n hn hi => ?_⟩
  simpa [hi] using List.all_eq_true.1 hcells n hn

/-- On the second pass the first channel has its patch again where the second one has replaced it.
-/
theorem registers_patch_duet :
    (Slots.assign duetProject .extended {} = ((Slots.assign duetProject .extended {}).1, {}) ∧
      build duetProject duet {} = .ok (⟨#[[0], [1], [0], []]⟩, {}) ∧
      Lists duetProject duet ⟨#[[0], [1], [0], []]⟩ ∧
      ∀ c ∈ duetProject.channels.filter Channel.isVrc7, ∃ t t',
        generate (duetJob c) t = (.ok (duetTokens c), t')) ∧
    HasCustom duetProject duet 2 .vrc7Fm1 0 ∧
    ∀ start, registers duetProject (Slots.assign duetProject .extended {}).1 start
      ((duetProject.channels.filter Channel.isVrc7).map fun c =>
        Driver.playEvents Instruction.loads (disassemble .extended (duetTokens c)) 1 []
          (disassemble .extended (duetTokens c))) 7 = Vector.replicate 8 1 := by
  have hslots : Slots.assign duetProject .extended {} =
      ((Slots.assign duetProject .extended {}).1, {}) := by
    decide +kernel
  obtain ⟨rows, hrows, hpatch⟩ := registers_patch (o := {}) hslots build_duet lists_duet
    generate_duet .vrc7Fm1 (by decide +kernel)
  have hsome : (duet.rows (duet.track .vrc7Fm1)).toOption.all (fun rows =>
      decide ((passRows (loopRow duet rows {}).1 1 (List.range rows.length))[6]? = some 2 ∧
        rows[2]?.any (·.note.any isPitched) = true ∧
        named isPitched none (cellsOf (rows.take 3)) = some 0)) = true := by
    decide +kernel
  rw [hrows] at hsome
  obtain ⟨hk, hpitched, hnamed⟩ := of_decide_eq_true hsome
  obtain ⟨row, hrow, hpitched⟩ := (Option.any_eq_true _ _).1 hpitched
  have hcustom : HasCustom duetProject duet 2 .vrc7Fm1 0 :=
    ⟨rows, row, hrows, hrow, hpitched, hnamed, by decide⟩
  exact ⟨⟨hslots, build_duet, lists_duet, generate_duet⟩, hcustom,
    fun start => (Option.some.inj (hpatch 1 start 6 2 hk 0 hcustom)).symm⟩

end Stream

end Chiptune
