import Chiptune.Listing
import Chiptune.Project
import Chiptune.Reference.Compress

/-!
# Options of a compile
-/

set_option autoImplicit false

namespace Chiptune

/-- Options of a compile. -/
structure Options where
  kernel : Kernel := .extended
  dialect : Dialect := .ca65
  /-- Stem of all labels. -/
  labelStem : String := ""
  /-- Songs to compile; all of them when not given. -/
  songs : Option (List Nat) := none
  /-- Load address of the music. -/
  dataBase : UInt16 := 0x8000
  /-- Load address of the samples. -/
  sampleBase : UInt16 := 0xC000
  compression : Compression := .default
  /-- Video region in place of the project's. -/
  machine : Option Machine := none
  deriving DecidableEq

end Chiptune
