/-!
# Expansion sound chips

The console's own sound chip is always present; a project may add any of six cartridge chips. A
project holds at most one of each, so a selection of chips is six flags (`ExpansionSet`), listed
in the fixed order of `Expansion.all`.
-/

set_option autoImplicit false

namespace Chiptune

/-- Sound chip that a cartridge may add. -/
inductive Expansion
  | vrc6
  | vrc7
  | fds
  | mmc5
  | n163
  | s5b
  deriving DecidableEq

namespace Expansion

/-- Every chip, in the order of the driver. -/
def all : List Expansion := [vrc6, vrc7, fds, mmc5, n163, s5b]

/-- Name shown in messages. -/
def name : Expansion → String
  | vrc6 => "VRC6"
  | vrc7 => "VRC7"
  | fds => "FDS"
  | mmc5 => "MMC5"
  | n163 => "N163"
  | s5b => "S5B"

/-- Name in project files. -/
def key : Expansion → String
  | vrc6 => "vrc6"
  | vrc7 => "vrc7"
  | fds => "fds"
  | mmc5 => "mmc5"
  | n163 => "n163"
  | s5b => "s5b"

/-- Bit of the chip in the header's expansion mask. -/
def maskBit : Expansion → UInt8
  | vrc6 => 0x01
  | vrc7 => 0x02
  | fds => 0x04
  | mmc5 => 0x08
  | n163 => 0x10
  | s5b => 0x20

theorem mem_all (e : Expansion) : e ∈ all := by cases e <;> decide

end Expansion

/-- Set of expansion chips. -/
structure ExpansionSet where
  vrc6 : Bool := false
  vrc7 : Bool := false
  fds : Bool := false
  mmc5 : Bool := false
  n163 : Bool := false
  s5b : Bool := false
  deriving DecidableEq

namespace ExpansionSet

/-- The set without chips. -/
def empty : ExpansionSet := {}

/-- Whether a chip is in the set. -/
def contains (s : ExpansionSet) : Expansion → Bool
  | .vrc6 => s.vrc6
  | .vrc7 => s.vrc7
  | .fds => s.fds
  | .mmc5 => s.mmc5
  | .n163 => s.n163
  | .s5b => s.s5b

/-- The set with a chip added. -/
def insert (s : ExpansionSet) : Expansion → ExpansionSet
  | .vrc6 => { s with vrc6 := true }
  | .vrc7 => { s with vrc7 := true }
  | .fds => { s with fds := true }
  | .mmc5 => { s with mmc5 := true }
  | .n163 => { s with n163 := true }
  | .s5b => { s with s5b := true }

/-- Set of the chips in a list. -/
def ofList (chips : List Expansion) : ExpansionSet := chips.foldl insert empty

/-- The chips of the set in the order of the driver. -/
def toList (s : ExpansionSet) : List Expansion := Expansion.all.filter s.contains

/-- Expansion mask of the header. -/
def mask (s : ExpansionSet) : UInt8 :=
  s.toList.foldl (fun bits chip => bits ||| chip.maskBit) 0

theorem contains_insert (s : ExpansionSet) (a b : Expansion) :
    (s.insert a).contains b = (a == b || s.contains b) := by
  cases a <;> cases b <;> simp [insert, contains]

theorem mem_toList {s : ExpansionSet} {e : Expansion} : e ∈ s.toList ↔ s.contains e = true := by
  simp [toList, Expansion.mem_all]

theorem ofList_toList (s : ExpansionSet) : ofList s.toList = s := by
  obtain ⟨a, b, c, d, e, f⟩ := s
  cases a <;> cases b <;> cases c <;> cases d <;> cases e <;> cases f <;> rfl

end ExpansionSet

end Chiptune
