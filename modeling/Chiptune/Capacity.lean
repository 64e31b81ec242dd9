import Chiptune.Error

/-!
# Lists that no memory holds

Lengths in a project are machine words, so they can ask for lists that are larger than any memory.
`Capacity.check` refuses a list before it is built, and `Capacity.reserve` one that grows before it
gets more room.
-/

set_option autoImplicit false

namespace Chiptune.Capacity

/-- Most bytes of a list: half of the addresses of a 64-bit machine. -/
def maxBytes : Nat := 0x7FFFFFFFFFFFFFFF

/-- Refuse a list of `count` items of `itemBytes` bytes each that has more than `maxBytes` bytes. -/
def check (itemBytes count : Nat) : Except Fault Unit :=
  if maxBytes < itemBytes * count then .error .memory else .ok ()

/-- Room of a list that is to hold `needed` items: one that is out of room gets at least twice as
much as it has, and room for four items at the least. -/
def grown (room needed : Nat) : Nat :=
  if needed ≤ room then room else max 4 (max (2 * room) needed)

/-- Room of a growing list, unless it has more bytes than `maxBytes`. -/
def reserve (itemBytes room needed : Nat) : Except Fault Nat :=
  (check itemBytes (grown room needed)).map fun _ => grown room needed

theorem reserve_eq (itemBytes room needed : Nat) : reserve itemBytes room needed =
    if maxBytes < itemBytes * grown room needed then .error .memory
    else .ok (grown room needed) := by
  unfold reserve check
  split <;> rfl

theorem le_grown (room needed : Nat) : room ≤ grown room needed := by
  unfold grown
  split <;> omega

end Chiptune.Capacity
