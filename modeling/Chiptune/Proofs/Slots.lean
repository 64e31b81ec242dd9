import Chiptune.Slots
import Mathlib.Data.List.Basic

/-!
# The slots of a project's instruments

The instruments of a table that can be played seek its slots, and the rank of one of them is the
number of those before it. What slot an instrument gets, and whether there is a warning about it,
depends on its rank only (`Slots.filled_assign`).

Without a warning about an overflow every instrument has a slot of its own, where its table names it
again (`Slots.assign_table`). There is no warning if all tables have room (`Slots.assign_fits`).
Whatever the warnings, all slots are ones that the kernel can name (`Slots.bounded_assign`), and
only an instrument that comes after its table was full is sent to the slot of another
(`Slots.assign_given`).
-/

set_option autoImplicit false

namespace Chiptune.Slots

variable {p : Project} {kernel : Kernel}

/-! ## Instruments that seek a slot -/

/-- Those of the first instruments of a project that can be played and live in a table, in project
order. -/
def seekers (p : Project) (kernel : Kernel) (t : InstrumentTable) (count : Nat) : List Nat :=
  (List.range count).filter fun n =>
    p.instruments[n]?.any fun i => playable p kernel i && i.kind.table == t

/-- The table of an instrument was full before it was the instrument's turn. -/
def Overflows (p : Project) (kernel : Kernel) (n : Nat) : Prop :=
  ∃ i, p.instruments[n]? = some i ∧
    capacity i.kind.table ≤ (seekers p kernel i.kind.table n).length

theorem seekers_succ (kernel : Kernel) {count : Nat} {i : Instrument}
    (hi : p.instruments[count]? = some i) (t : InstrumentTable) :
    seekers p kernel t (count + 1) = seekers p kernel t count ++
      if playable p kernel i && i.kind.table == t then [count] else [] := by
  rw [seekers, List.range_succ, List.filter_append, List.filter_singleton, hi, Option.any_some,
    cond_eq_ite]
  rfl

theorem mem_seekers_iff {t : InstrumentTable} {count n : Nat} :
    n ∈ seekers p kernel t count ↔ n < count ∧
      ∃ i, p.instruments[n]? = some i ∧ playable p kernel i = true ∧ i.kind.table = t := by
  simp [seekers, Option.any_eq_true]

/-- The instruments that seek a slot of a table are those of the project that live there. -/
theorem mem_seekers {t : InstrumentTable} {count n : Nat} (h : n ∈ seekers p kernel t count) :
    ∃ i, p.instruments[n]? = some i ∧ i.kind.table = t := by
  obtain ⟨-, i, hi, -, htable⟩ := mem_seekers_iff.1 h
  exact ⟨i, hi, htable⟩

/-- The instruments that come first seek slots first. -/
theorem seekers_mono (p : Project) (kernel : Kernel) (t : InstrumentTable) {m n : Nat}
    (h : m ≤ n) : seekers p kernel t m <+: seekers p kernel t n := by
  obtain ⟨d, rfl⟩ := Nat.exists_eq_add_of_le h
  rw [seekers, seekers, List.range_add, List.filter_append]
  exact List.prefix_append _ _

theorem length_seekers (kernel : Kernel) (t : InstrumentTable) {count : Nat}
    (h : count ≤ p.instruments.length) : (seekers p kernel t count).length =
      (p.instruments.take count).countP fun i => playable p kernel i && i.kind.table == t := by
  induction count with
  | zero => rfl
  | succ count ih =>
    have hi := List.getElem?_eq_getElem (Nat.lt_of_succ_le h)
    rw [seekers_succ kernel hi, List.length_append, ih (Nat.le_of_succ_le h), List.take_add_one, hi,
      List.countP_append, Option.toList_some, List.countP_singleton]
    split <;> rfl

/-- Place of an instrument among those that seek a slot of a table. -/
def rank (p : Project) (kernel : Kernel) (t : InstrumentTable) (n : Nat) : Nat :=
  (seekers p kernel t n).length

/-- An instrument that seeks a slot stands behind those that sought one before. -/
theorem seekers_rank {t : InstrumentTable} {count n : Nat} (h : n ∈ seekers p kernel t count) :
    (seekers p kernel t count)[rank p kernel t n]? = some n := by
  obtain ⟨hlt, i, hi, hplayable, rfl⟩ := mem_seekers_iff.1 h
  obtain ⟨later, hlater⟩ := seekers_mono p kernel i.kind.table (Nat.succ_le_of_lt hlt)
  rw [← hlater, seekers_succ kernel hi]
  simp [rank, hplayable]

/-- What holds of the slots of the first instruments of a project, whatever their number, holds of
those of all. -/
theorem assign_counted {P : Nat → Slots × Log → Prop} {log : Log} (hzero : P 0 ({}, log))
    (hone : ∀ count state instrument, p.instruments[count]? = some instrument → P count state →
      P (count + 1) (assignOne p kernel state instrument)) :
    P p.instruments.length (assign p kernel log) := by
  have hfold : ∀ (rest : List Instrument) (count : Nat) (state : Slots × Log),
      p.instruments.drop count = rest → P count state →
        P (count + rest.length) (rest.foldl (assignOne p kernel) state) := by
    intro rest
    induction rest with
    | nil => exact fun count state _ hstate => hstate
    | cons instrument rest ih =>
      intro count state hrest hstate
      have hi : p.instruments[count]? = some instrument := by
        rw [← List.head?_drop, hrest]
        rfl
      have hdrop : p.instruments.drop (count + 1) = rest := by
        rw [← List.drop_drop, hrest]
        rfl
      have hmore := ih (count + 1) _ hdrop (hone count state instrument hi hstate)
      rwa [Nat.add_assoc, Nat.add_comm 1] at hmore
  have hall := hfold p.instruments 0 ({}, log) rfl hzero
  rwa [Nat.zero_add] at hall

theorem slots_push (s : Slots) (index : Nat) (t : InstrumentTable) :
    (s.push index t).slots = s.slots ++ [some (s.table t).length] := by
  cases t <;> rfl

theorem table_push (s : Slots) (index : Nat) (t t' : InstrumentTable) :
    (s.push index t).table t' = s.table t' ++ if t = t' then [index] else [] := by
  cases t <;> cases t' <;> simp [push, table]

/-- The slots of the instruments are not part of the tables. -/
theorem table_slots (s : Slots) (slots : List (Option Nat)) (t : InstrumentTable) :
    { s with slots }.table t = s.table t := by
  cases t <;> rfl

/-- Slot of an instrument that stands at a place among those of its table. -/
def slotFor (p : Project) (kernel : Kernel) (i : Instrument) (k : Nat) : Option Nat :=
  if playable p kernel i then some (if k < capacity i.kind.table then k else 0) else none

/-- An instrument that stands at a place among those of its table can be played, but the table has
no slot for it. -/
def overflows (p : Project) (kernel : Kernel) (i : Instrument) (k : Nat) : Bool :=
  playable p kernel i && capacity i.kind.table ≤ k

/-- The warning about an instrument for which its table has no slot. -/
def overflow (i : Instrument) : Warning where
  kind := .tableOverflow
  message :=
    let size := capacity i.kind.table
    let name := tableName i.kind.table
    s!"Instrument '{i.name}' exceeds the {size} {name} instrument slots, using slot 0"

/-- What the next instrument can do: it is left out, its table has room for it, or not. -/
theorem assignOne_cases (p : Project) (kernel : Kernel) (s : Slots) (log : Log) (i : Instrument) :
    (playable p kernel i = false ∧
      assignOne p kernel (s, log) i = ({ s with slots := s.slots ++ [none] }, log)) ∨
    (playable p kernel i = true ∧ (s.table i.kind.table).length < capacity i.kind.table ∧
      assignOne p kernel (s, log) i = (s.push s.slots.length i.kind.table, log)) ∨
    (playable p kernel i = true ∧ capacity i.kind.table ≤ (s.table i.kind.table).length ∧
      assignOne p kernel (s, log) i = ({ s with slots := s.slots ++ [some 0] },
        { log with warnings := log.warnings ++ [overflow i] })) := by
  unfold assignOne
  cases playable p kernel i with
  | false => exact .inl ⟨rfl, rfl⟩
  | true =>
    by_cases hroom : (s.table i.kind.table).length < capacity i.kind.table
    · exact .inr (.inl ⟨rfl, hroom, if_pos hroom⟩)
    · exact .inr (.inr ⟨rfl, Nat.le_of_not_lt hroom, if_neg hroom⟩)

/-- The next instrument adds its slot. -/
theorem slots_assignOne (s : Slots) (log : Log) (i : Instrument) :
    (assignOne p kernel (s, log) i).1.slots =
      s.slots ++ [slotFor p kernel i (s.table i.kind.table).length] := by
  rcases assignOne_cases p kernel s log i with
    ⟨hsilent, hone⟩ | ⟨hplayable, hroom, hone⟩ | ⟨hplayable, hfull, hone⟩
  · simp [hone, slotFor, hsilent]
  · simp [hone, slotFor, hplayable, hroom, slots_push]
  · simp [hone, slotFor, hplayable, Nat.not_lt_of_le hfull]

/-- The next instrument enters its table, which is cut to its capacity. -/
theorem table_assignOne {s : Slots} (log : Log) (i : Instrument) {t : InstrumentTable}
    (h : (s.table t).length ≤ capacity t) :
    (assignOne p kernel (s, log) i).1.table t = (s.table t ++
      if playable p kernel i && i.kind.table == t then [s.slots.length] else []).take
        (capacity t) := by
  rcases assignOne_cases p kernel s log i with
    ⟨hsilent, hone⟩ | ⟨hplayable, hroom, hone⟩ | ⟨hplayable, hfull, hone⟩
  · rw [hone, table_slots, hsilent, Bool.false_and, if_neg Bool.false_ne_true, List.append_nil,
      List.take_of_length_le h]
  · rw [hone, table_push, hplayable, Bool.true_and]
    simp only [beq_iff_eq]
    split
    · rename_i heq
      rw [heq] at hroom
      refine (List.take_of_length_le ?_).symm
      rw [List.length_append, List.length_singleton]
      exact hroom
    · rw [List.append_nil, List.take_of_length_le h]
  · rw [hone, table_slots, hplayable, Bool.true_and]
    simp only [beq_iff_eq]
    split
    · rename_i heq
      rw [heq] at hfull
      rw [List.take_append_of_le_length hfull, List.take_of_length_le h]
    · rw [List.append_nil, List.take_of_length_le h]

/-- The next instrument adds a warning if its table is full. -/
theorem log_assignOne (s : Slots) (log : Log) (i : Instrument) :
    (assignOne p kernel (s, log) i).2 = { log with
      warnings := log.warnings ++
        if overflows p kernel i (s.table i.kind.table).length then [overflow i] else [] } := by
  rcases assignOne_cases p kernel s log i with
    ⟨hsilent, hone⟩ | ⟨hplayable, hroom, hone⟩ | ⟨hplayable, hfull, hone⟩
  · simp [hone, overflows, hsilent]
  · simp [hone, overflows, Nat.not_le_of_lt hroom]
  · simp [hone, overflows, hplayable, hfull]

/-- A table that is cut to its capacity tells as much about the next instrument as one that is not.
-/
theorem slotFor_min (i : Instrument) (k : Nat) :
    slotFor p kernel i (min (capacity i.kind.table) k) = slotFor p kernel i k := by
  unfold slotFor
  by_cases hk : k < capacity i.kind.table
  · rw [Nat.min_eq_right (Nat.le_of_lt hk)]
  · rw [Nat.min_eq_left (Nat.le_of_not_lt hk), if_neg hk, if_neg (Nat.lt_irrefl _)]

theorem overflows_min (i : Instrument) (k : Nat) :
    overflows p kernel i (min (capacity i.kind.table) k) = overflows p kernel i k := by
  have hfull : capacity i.kind.table ≤ min (capacity i.kind.table) k ↔
      capacity i.kind.table ≤ k := by omega
  simp only [overflows, hfull]

/-! ## All instruments -/

/-- Slot of the instrument at an index. -/
def place (p : Project) (kernel : Kernel) (n : Nat) : Option Nat :=
  p.instruments[n]?.bind fun i => slotFor p kernel i (rank p kernel i.kind.table n)

/-- Whether the table of the instrument at an index has no slot for it. -/
def isLate (p : Project) (kernel : Kernel) (n : Nat) : Bool :=
  p.instruments[n]?.any fun i => overflows p kernel i (rank p kernel i.kind.table n)

/-- Warnings about the instruments at some indices. -/
def warningsOf (p : Project) (indices : List Nat) : List Warning :=
  indices.filterMap fun n => p.instruments[n]?.map overflow

/-- Slots and warnings of the first instruments of a project. -/
structure Filled (p : Project) (kernel : Kernel) (log : Log) (count : Nat) (state : Slots × Log) :
    Prop where
  table : ∀ t, state.1.table t = (seekers p kernel t count).take (capacity t)
  slots : state.1.slots = (List.range count).map (place p kernel)
  log : state.2 = { log with
    warnings := log.warnings ++ warningsOf p ((List.range count).filter (isLate p kernel)) }

theorem filled_empty (p : Project) (kernel : Kernel) (log : Log) :
    Filled p kernel log 0 ({}, log) where
  table t := by cases t <;> rfl
  slots := rfl
  log := by simp [warningsOf]

theorem Filled.length_table {log : Log} {count : Nat} {state : Slots × Log}
    (h : Filled p kernel log count state) (t : InstrumentTable) :
    (state.1.table t).length = min (capacity t) (rank p kernel t count) := by
  rw [h.table, List.length_take, rank]

/-- What is put behind a list that was cut is cut as if it had not been. -/
theorem take_take_append (n : Nat) (front back : List Nat) :
    (front.take n ++ back).take n = (front ++ back).take n := by
  have hrest : n - min n front.length = n - front.length := by omega
  rw [List.take_append, List.take_append, List.take_take, Nat.min_self, List.length_take, hrest]

/-- **One more instrument**: its slot and its warning depend on its rank only. -/
theorem Filled.assignOne {log : Log} {count : Nat} {state : Slots × Log} {instrument : Instrument}
    (h : Filled p kernel log count state) (hi : p.instruments[count]? = some instrument) :
    Filled p kernel log (count + 1) (assignOne p kernel state instrument) := by
  have hsize := h.length_table instrument.kind.table
  refine ⟨fun t => ?_, ?_, ?_⟩
  · have hroom : (state.1.table t).length ≤ capacity t := by
      rw [h.length_table]
      exact Nat.min_le_left _ _
    rw [table_assignOne _ _ hroom, h.table, h.slots, List.length_map, List.length_range,
      seekers_succ kernel hi, take_take_append]
  · have hplace : place p kernel count =
        slotFor p kernel instrument (rank p kernel instrument.kind.table count) := by
      simp [place, hi]
    rw [slots_assignOne, hsize, slotFor_min, h.slots, ← hplace, List.range_succ, List.map_append,
      List.map_singleton]
  · have hlate : isLate p kernel count =
        overflows p kernel instrument (rank p kernel instrument.kind.table count) := by
      simp [isLate, hi]
    rw [log_assignOne, hsize, overflows_min, h.log, ← hlate, List.range_succ, List.filter_append,
      List.filter_singleton]
    cases isLate p kernel count <;> simp [warningsOf, hi]

/-- **Slots and warnings of all instruments of a project.** -/
theorem filled_assign (p : Project) (kernel : Kernel) (log : Log) :
    Filled p kernel log p.instruments.length (assign p kernel log) :=
  assign_counted (filled_empty p kernel log) fun _ _ _ hi hstate => hstate.assignOne hi

theorem Filled.slot_eq {log : Log} {state : Slots × Log}
    (h : Filled p kernel log p.instruments.length state) (n : Nat) :
    state.1.slot n = place p kernel n := by
  rw [Slots.slot, h.slots, List.getElem?_map]
  by_cases hn : n < p.instruments.length
  · rw [List.getElem?_range hn]
    rfl
  · rw [List.getElem?_eq_none (by simpa using hn), place,
      List.getElem?_eq_none (Nat.le_of_not_lt hn)]
    rfl

/-- Every instrument has its place among the slots. -/
theorem length_assign (p : Project) (kernel : Kernel) (log : Log) :
    (assign p kernel log).1.slots.length = p.instruments.length := by
  rw [(filled_assign p kernel log).slots, List.length_map, List.length_range]

/-- No more instruments have slots than there are slots. -/
theorem lt_of_slot {s : Slots} {i slot : Nat} (hs : s.slot i = some slot) : i < s.slots.length := by
  by_contra hge
  rw [Slots.slot, List.getElem?_eq_none (Nat.le_of_not_lt hge)] at hs
  cases hs

theorem place_of_mem {t : InstrumentTable} {count n : Nat} (h : n ∈ seekers p kernel t count) :
    place p kernel n =
      some (if rank p kernel t n < capacity t then rank p kernel t n else 0) := by
  obtain ⟨-, i, hi, hplayable, rfl⟩ := mem_seekers_iff.1 h
  simp [place, slotFor, hi, hplayable]

/-- Only an instrument that seeks a slot gets one. -/
theorem mem_of_place {n slot : Nat} {i : Instrument} (hi : p.instruments[n]? = some i)
    (h : place p kernel n = some slot) :
    n ∈ seekers p kernel i.kind.table p.instruments.length := by
  rw [place, hi, Option.bind_some, slotFor] at h
  split at h
  · rename_i hplayable
    exact mem_seekers_iff.2 ⟨(List.getElem?_eq_some_iff.1 hi).1, i, hi, hplayable, rfl⟩
  · cases h

theorem isLate_eq_true_iff {n : Nat} {i : Instrument} (hi : p.instruments[n]? = some i) :
    isLate p kernel n = true ↔ n ∈ seekers p kernel i.kind.table p.instruments.length ∧
      capacity i.kind.table ≤ rank p kernel i.kind.table n := by
  obtain ⟨hn, rfl⟩ := List.getElem?_eq_some_iff.1 hi
  simp [isLate, overflows, mem_seekers_iff, hn]

/-! ## Without an overflow -/

/-- The slots of the first instruments of a project, each in its table. -/
structure Exact (p : Project) (count : Nat) (s : Slots) : Prop where
  length : s.slots.length = count
  table : ∀ i slot instrument, p.instruments[i]? = some instrument → s.slot i = some slot →
    (s.table instrument.kind.table)[slot]? = some i

/-- A log without a new warning is one without late instruments. -/
theorem Filled.isLate_eq_false {log : Log} {slots : Slots} {count n : Nat} {i : Instrument}
    (h : Filled p kernel log count (slots, log)) (hn : n < count)
    (hi : p.instruments[n]? = some i) : isLate p kernel n = false := by
  have hnone : warningsOf p ((List.range count).filter (isLate p kernel)) = [] :=
    List.append_right_eq_self.1 (congrArg Log.warnings h.log).symm
  by_contra hlate
  rw [Bool.not_eq_false] at hlate
  have hn := List.filterMap_eq_nil_iff.1 hnone n
    (List.mem_filter.2 ⟨List.mem_range.2 hn, hlate⟩)
  rw [hi] at hn
  cases hn

/-- Without an overflow all slots are in their tables. -/
theorem assign_exact {slots : Slots} {log : Log} (h : assign p kernel log = (slots, log)) :
    Exact p p.instruments.length slots := by
  have hfilled := filled_assign p kernel log
  have hlength := length_assign p kernel log
  rw [h] at hfilled hlength
  refine ⟨hlength, fun n slot i hi hs => ?_⟩
  rw [hfilled.slot_eq] at hs
  have hmem := mem_of_place hi hs
  have hroom : rank p kernel i.kind.table n < capacity i.kind.table := by
    by_contra hfull
    have hlate := (isLate_eq_true_iff hi).2 ⟨hmem, Nat.le_of_not_lt hfull⟩
    rw [hfilled.isLate_eq_false (List.getElem?_eq_some_iff.1 hi).1 hi] at hlate
    cases hlate
  rw [place_of_mem hmem, if_pos hroom] at hs
  obtain rfl := Option.some.inj hs
  rw [hfilled.table, List.getElem?_take_of_lt hroom, seekers_rank hmem]

/-- **Without an overflow the table of an instrument names it at its slot.** -/
theorem assign_table {slots : Slots} {log : Log} (h : assign p kernel log = (slots, log))
    {i slot : Nat} {instrument : Instrument} (hi : p.instruments[i]? = some instrument)
    (hs : slots.slot i = some slot) : (slots.table instrument.kind.table)[slot]? = some i :=
  (assign_exact h).table i slot instrument hi hs

/-! ## Tables with room -/

/-- No table has fewer slots than the project has instruments that can be played there. -/
def Fits (p : Project) (kernel : Kernel) : Prop :=
  ∀ t, p.instruments.countP (fun i => playable p kernel i && i.kind.table == t) ≤ capacity t

/-- If all fit, nobody is late. -/
theorem Fits.isLate_eq_false (h : Fits p kernel) (n : Nat) : isLate p kernel n = false := by
  by_contra hlate
  rw [Bool.not_eq_false] at hlate
  obtain ⟨i, hi, -⟩ := (Option.any_eq_true _ _).1 hlate
  obtain ⟨hmem, hfull⟩ := (isLate_eq_true_iff hi).1 hlate
  have hlt := (List.getElem?_eq_some_iff.1 (seekers_rank hmem)).1
  rw [length_seekers kernel _ (Nat.le_refl _), List.take_length] at hlt
  exact absurd (h i.kind.table) (Nat.not_le_of_lt (Nat.lt_of_le_of_lt hfull hlt))

/-- Every instrument that a table names has a slot. -/
def Assigned (s : Slots) : Prop := ∀ t, ∀ i ∈ s.table t, ∃ slot, s.slot i = some slot

theorem assigned_assign (p : Project) (kernel : Kernel) (log : Log) :
    (assign p kernel log).1.Assigned := by
  have h := filled_assign p kernel log
  intro t n hn
  rw [h.table] at hn
  exact ⟨_, (h.slot_eq n).trans (place_of_mem (List.mem_of_mem_take hn))⟩

/-! ## Tables without room -/

/-- The slots of the first instruments of a project: a table has the first of those that seek its
slots, as many as there is room for, and the others share slot 0. -/
structure Given (p : Project) (kernel : Kernel) (count : Nat) (s : Slots) : Prop where
  length : s.slots.length = count
  table : ∀ t, s.table t = (seekers p kernel t count).take (capacity t)
  slot : ∀ n slot i, p.instruments[n]? = some i → s.slot n = some slot →
    (s.table i.kind.table)[slot]? = some n ∨ slot = 0 ∧ Overflows p kernel n

/-- **The slots of all instruments of a project**: each is its own, or slot 0 of a full table. -/
theorem assign_given (p : Project) (kernel : Kernel) (log : Log) :
    Given p kernel p.instruments.length (assign p kernel log).1 := by
  have h := filled_assign p kernel log
  refine ⟨length_assign p kernel log, h.table, fun n slot i hi hs => ?_⟩
  rw [h.slot_eq] at hs
  have hmem := mem_of_place hi hs
  rw [place_of_mem hmem] at hs
  obtain rfl := Option.some.inj hs
  by_cases hroom : rank p kernel i.kind.table n < capacity i.kind.table
  · rw [if_pos hroom, h.table, List.getElem?_take_of_lt hroom]
    exact .inl (seekers_rank hmem)
  · rw [if_neg hroom]
    exact .inr ⟨rfl, i, hi, Nat.le_of_not_lt hroom⟩

/-- Every slot that is given is one where the table names an instrument. -/
theorem Given.exists_named {s : Slots} (h : Given p kernel p.instruments.length s) {n slot : Nat}
    {i : Instrument} (hi : p.instruments[n]? = some i) (hs : s.slot n = some slot) :
    ∃ found, (s.table i.kind.table)[slot]? = some found ∧
      (found = n ∨ slot = 0 ∧ Overflows p kernel n) := by
  rcases h.slot n slot i hi hs with hnamed | ⟨rfl, hover⟩
  · exact ⟨n, hnamed, .inl rfl⟩
  · -- a full table has a first instrument
    have hpos : 0 < capacity i.kind.table := by cases i.kind.table <;> decide
    obtain ⟨j, hj, hfull⟩ := hover
    obtain rfl := Option.some.inj (hi.symm.trans hj)
    have hle : n ≤ p.instruments.length := Nat.le_of_lt (List.getElem?_eq_some_iff.1 hi).1
    have hlater := (seekers_mono p kernel i.kind.table hle).length_le
    have hlt : 0 < (s.table i.kind.table).length := by
      rw [h.table, List.length_take]
      omega
    exact ⟨_, List.getElem?_eq_getElem hlt, .inr ⟨rfl, i, hi, hfull⟩⟩

/-- Every slot is one that the instrument opcode can name. -/
def Bounded (s : Slots) : Prop := ∀ i slot, s.slot i = some slot → slot < instrumentSlotLimit

theorem Given.bounded {s : Slots} (h : Given p kernel p.instruments.length s) : s.Bounded := by
  intro i slot hs
  have hi := lt_of_slot hs
  rw [h.length] at hi
  obtain ⟨found, hfound, -⟩ := h.exists_named (List.getElem?_eq_getElem hi) hs
  have hlt := (List.getElem?_eq_some_iff.1 hfound).1
  rw [h.table, List.length_take] at hlt
  have hcapacity : ∀ t, capacity t ≤ instrumentSlotLimit := by
    intro t
    cases t <;> decide
  have hle := hcapacity p.instruments[i].kind.table
  omega

theorem bounded_assign (p : Project) (kernel : Kernel) (log : Log) :
    (assign p kernel log).1.Bounded :=
  (assign_given p kernel log).bounded

end Chiptune.Slots
