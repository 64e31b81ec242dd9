import Chiptune.Proofs.Rows

/-!
# The rows that all channels of a song share

Where a row stands does not depend on the track (`Song.places`), so all channels of a song have the
same number of rows and return to the same one.

* `Song.places_rows`: **the places of the rows of a track**.
* `Stream.loopRow_eq`: all tracks loop to the same row.
-/

set_option autoImplicit false

namespace Chiptune

/-- Where a row stands: its position, and whether it is the first row there. -/
def Row.place (row : Row) : Nat × Bool := (row.position, row.isFirst)

namespace Song

/-- Places of the rows of a position. -/
def placesAt (s : Song) (position : Nat) : List (Nat × Bool) :=
  (List.range (s.positionLength position)).map fun row => (position, row == 0)

/-- Places of the rows of a number of positions from a given one on. -/
def placesFrom (s : Song) : Nat → Nat → List (Nat × Bool)
  | 0, _ => []
  | count + 1, position => s.placesAt position ++ s.placesFrom count (position + 1)

/-- Places of the rows of a song. -/
def places (s : Song) : List (Nat × Bool) := s.placesFrom s.length 0

theorem places_rowsOf (s : Song) (position : Nat) (cells : List Note) :
    (s.rowsOf position cells).map Row.place = s.placesAt position := by
  apply List.ext_getElem
  · simp [rowsOf, placesAt]
  · intro row h h'
    simp [rowsOf, placesAt, Row.place]

theorem places_rowsFrom {s : Song} {track : Option Track} {count position room : Nat}
    {done rows : Array Row} (h : s.rowsFrom track count position room done = .ok rows) :
    rows.toList.map Row.place = done.toList.map Row.place ++ s.placesFrom count position := by
  induction count generalizing position room done with
  | zero =>
    cases h
    simp [placesFrom]
  | succ count ih =>
    rw [rowsFrom] at h
    split at h
    · cases h
    split at h
    · cases h
    · rename_i cells _
      rw [ih h, placesFrom, Array.toList_appendList, List.map_append, places_rowsOf,
        List.append_assoc]

/-- **The rows of a track stand at the places of the song**, whatever the track is. -/
theorem places_rows {s : Song} {track : Option Track} {rows : List Row}
    (h : s.rows track = .ok rows) : rows.map Row.place = s.places := by
  unfold Song.rows at h
  cases hfrom : s.rowsFrom track s.length 0 0 #[] with
  | error e =>
    rw [hfrom] at h
    cases h
  | ok array =>
    rw [hfrom] at h
    cases h
    simpa [Song.places] using places_rowsFrom hfrom

theorem length_rows {s : Song} {track : Option Track} {rows : List Row}
    (h : s.rows track = .ok rows) : rows.length = s.places.length := by
  rw [← places_rows h, List.length_map]

end Song

namespace Stream

/-- A song loops to a place. -/
theorem loopRow_places (song : Song) (rows : List Row) (log : Log) :
    (loopRow song rows log).1 = song.loopPoint.bind fun point =>
      let position := if song.length ≤ point then 0 else point
      ((rows.map Row.place).findIdx? fun place => decide (position ≤ place.1) && place.2) <|>
        if rows.isEmpty then none else some 0 := by
  unfold loopRow
  cases song.loopPoint with
  | none => rfl
  | some point =>
    have hplaces : ∀ position, ((rows.map Row.place).findIdx? fun place =>
        decide (position ≤ place.1) && place.2) =
        rows.findIdx? fun row => decide (position ≤ row.position) && row.isFirst := fun position =>
      List.findIdx?_map
    simp only [Option.bind_some, decide_eq_true_eq, hplaces]
    split
    · rename_i hfind
      rw [hfind]
      rfl
    · rename_i hfind
      rw [hfind]
      split <;> rfl

/-- **All tracks of a song loop to the same row.** -/
theorem loopRow_eq {song : Song} {track track' : Option Track} {rows rows' : List Row}
    (h : song.rows track = .ok rows) (h' : song.rows track' = .ok rows') (log log' : Log) :
    (loopRow song rows log).1 = (loopRow song rows' log').1 := by
  have hplaces : rows.map Row.place = rows'.map Row.place :=
    (Song.places_rows h).trans (Song.places_rows h').symm
  have hempty : rows.isEmpty = rows'.isEmpty := by
    have hlength := congrArg List.isEmpty hplaces
    simpa using hlength
  rw [loopRow_places, loopRow_places, hplaces, hempty]

end Stream

end Chiptune
