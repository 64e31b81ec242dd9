import Chiptune.Kernel
import Chiptune.Project
import Chiptune.Warning

/-!
# Instrument slots

Instruments that can be played get consecutive slots of their table, in project order. Those past
the table's capacity are reported and share slot 0.
-/

set_option autoImplicit false

namespace Chiptune

/-- Number of records of the extended instrument table. -/
def extendedSlotLimit : Nat := 32

/-- Slots of the instruments of a project. -/
structure Slots where
  /-- Slot of each instrument. -/
  slots : List (Option Nat) := []
  /-- Instruments of the primary table in slot order. -/
  primary : List Nat := []
  /-- Instruments of the extended table in slot order. -/
  extended : List Nat := []
  deriving DecidableEq

namespace Slots

/-- Whether a project's instrument can be played on a kernel. -/
def playable (p : Project) (kernel : Kernel) (i : Instrument) : Bool :=
  match i.kind.expansion with
  | none => true
  | some chip => kernel.allowsExpansions && p.uses chip

/-- Instruments of a table in slot order. -/
def table (s : Slots) : InstrumentTable → List Nat
  | .primary => s.primary
  | .extended => s.extended

/-- Number of slots of a table. -/
def capacity : InstrumentTable → Nat
  | .primary => instrumentSlotLimit
  | .extended => extendedSlotLimit

/-- Name of a table in messages. -/
def tableName : InstrumentTable → String
  | .primary => "primary"
  | .extended => "extended"

/-- Put an instrument into the next slot of a table. -/
def push (s : Slots) (index : Nat) : InstrumentTable → Slots
  | .primary =>
    { s with slots := s.slots ++ [some s.primary.length], primary := s.primary ++ [index] }
  | .extended =>
    { s with slots := s.slots ++ [some s.extended.length], extended := s.extended ++ [index] }

/-- Give a slot to the next instrument. -/
def assignOne (p : Project) (kernel : Kernel) (state : Slots × Log) (i : Instrument) :
    Slots × Log :=
  let (s, log) := state
  if !playable p kernel i then ({ s with slots := s.slots ++ [none] }, log)
  else
    let table := i.kind.table
    if (s.table table).length < capacity table then (s.push s.slots.length table, log)
    else
      let size := capacity table
      let name := tableName table
      ({ s with slots := s.slots ++ [some 0] }, log.warn .tableOverflow
        s!"Instrument '{i.name}' exceeds the {size} {name} instrument slots, using slot 0")

/-- Slots of all instruments of a project. -/
def assign (p : Project) (kernel : Kernel) (log : Log) : Slots × Log :=
  p.instruments.foldl (assignOne p kernel) ({}, log)

/-- Slot of an instrument, `none` if it cannot be played. -/
def slot (s : Slots) (instrument : Nat) : Option Nat := s.slots[instrument]?.join

end Slots

end Chiptune
