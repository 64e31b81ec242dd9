import Chiptune.Proofs.Refusals
import Mathlib.Data.Nat.Find

/-!
# The rows of a track, one by one

What a track plays on a row depends on the row alone (`Song.cellAt`): the first cell in list order
that the pattern of the position has there. The positions are played up to the first one that
`Stops` the song: one with a pattern that the track does not have, or one for whose rows the list of
those before it gets no room.

* `Song.rowsFrom_ok`, `Song.rowsFrom_stops`: positions that are all played, and a first one that
  is not.
* `Song.rows_skeleton`: **the rows of a track, when there are any, and what stops them**.
-/

set_option autoImplicit false

namespace Chiptune.Song

variable (s : Song) (track : Option Track)

/-! ## Rows -/

/-- No memory has the room that the list of rows takes up to the end of a position. -/
def Overflows (position : Nat) : Prop :=
  Capacity.maxBytes < rowBytes * s.roomBefore (position + 1)

variable {s track}

end Chiptune.Song
