import Chiptune.Curve.Playback

/-!
# Encoded curves read back

The bytes of a curve hold stretches of records (`Holds`), and a jump leads from the end of one
stretch to the start of another. `Player.Plays` follows a player through some frames without a
release.

* `holds_records`: the records of a stretch of frames hold just these frames.
* `Holds.plays`, `Loops.plays_cycle`: a player plays a stretch to its end, and a loop behind it as
  long as asked.
* `encodeRuns_loops`: **a curve without a release walks through its frames and then cycles**.
* `encodeRuns_sustains`: **a curve with a release sustains until the note is released, on whatever
  frame that is, and then plays the rest and holds the last frame**.
-/

set_option autoImplicit false

namespace Chiptune.Curve

/-! ## Runs and records -/

/-- A run that one record can hold. -/
structure IsRun (run : UInt8 × Nat) : Prop where
  value : 0x80 ≤ run.1
  pos : 1 ≤ run.2
  le : run.2 ≤ maxRun

/-- Frames of a sequence of runs. -/
def framesOf (rs : List (UInt8 × Nat)) : List UInt8 := rs.flatMap fun r => List.replicate r.2 r.1

theorem framesOf_runsFrom (value : UInt8) (count : Nat) (frames : List UInt8) :
    framesOf (runsFrom value count frames) = List.replicate count value ++ frames := by
  induction frames generalizing value count with
  | nil => simp [runsFrom, framesOf]
  | cons next rest ih =>
    rw [runsFrom]
    split
    · rename_i h
      rw [ih, h.1, List.replicate_succ']
      simp
    · have hrest : framesOf ((value, count) :: runsFrom next 1 rest) =
          List.replicate count value ++ framesOf (runsFrom next 1 rest) := rfl
      rw [hrest, ih]
      rfl

theorem framesOf_runs (frames : List UInt8) : framesOf (runs frames) = frames := by
  cases frames with
  | nil => rfl
  | cons value rest => exact framesOf_runsFrom value 1 rest

theorem isRun_of_mem_runsFrom {value : UInt8} {count : Nat} {frames : List UInt8}
    (hv : 0x80 ≤ value) (hpos : 1 ≤ count) (hle : count ≤ maxRun) (hf : ∀ b ∈ frames, 0x80 ≤ b) :
    ∀ r ∈ runsFrom value count frames, IsRun r := by
  induction frames generalizing value count with
  | nil =>
    intro r hr
    rw [List.mem_singleton.1 hr]
    exact ⟨hv, hpos, hle⟩
  | cons next rest ih =>
    have hnext := hf next List.mem_cons_self
    have hrest : ∀ b ∈ rest, 0x80 ≤ b := fun b hb => hf b (List.mem_cons_of_mem _ hb)
    rw [runsFrom]
    split
    · rename_i h
      exact ih hv (by omega) (by omega) hrest
    · intro r hr
      rcases List.mem_cons.1 hr with rfl | hr
      · exact ⟨hv, hpos, hle⟩
      · exact ih hnext (Nat.le_refl 1) (by decide) hrest r hr

theorem isRun_of_mem_runs {frames : List UInt8} (hf : ∀ b ∈ frames, 0x80 ≤ b) :
    ∀ r ∈ runs frames, IsRun r := by
  cases frames with
  | nil => simp [runs]
  | cons value rest =>
    exact isRun_of_mem_runsFrom (hf value List.mem_cons_self) (Nat.le_refl 1) (by decide)
      fun b hb => hf b (List.mem_cons_of_mem _ hb)

theorem record_one (value : UInt8) : record (value, 1) = [value] := rfl

theorem record_many {value : UInt8} {count : Nat} (h : 1 < count) :
    record (value, count) = [UInt8.ofNat count, value] := if_neg (by omega)

theorem length_flatMap_record (rs : List (UInt8 × Nat)) (h : ∀ r ∈ rs, IsRun r) :
    (rs.flatMap record).length ≤ (framesOf rs).length := by
  induction rs with
  | nil => exact Nat.le_refl 0
  | cons r rs ih =>
    have hr := (h r List.mem_cons_self).pos
    have ih := ih fun r hr => h r (List.mem_cons_of_mem _ hr)
    have hrecord : (record r).length ≤ r.2 := by
      unfold record
      split
      · simpa using hr
      · simp only [List.length_cons, List.length_nil]
        omega
    have hframes : (framesOf (r :: rs)).length = r.2 + (framesOf rs).length := by
      simp [framesOf]
    rw [List.flatMap_cons, List.length_append, hframes]
    omega

/-- Records are no longer than their frames. -/
theorem length_records {frames : List UInt8} (hf : ∀ b ∈ frames, 0x80 ≤ b) :
    (records frames).length ≤ frames.length := by
  have h := length_flatMap_record (runs frames) (isRun_of_mem_runs hf)
  rwa [framesOf_runs] at h

/-- The count byte of a run is neither a jump nor a value. -/
theorem count_byte {count : Nat} (hpos : 1 ≤ count) (hle : count ≤ maxRun) :
    UInt8.ofNat count ≠ jump ∧ ¬ 0x80 ≤ UInt8.ofNat count ∧ (UInt8.ofNat count).toNat = count := by
  have hbound : ∀ n < 128, 1 ≤ n →
      UInt8.ofNat n ≠ jump ∧ ¬ 0x80 ≤ UInt8.ofNat n ∧ (UInt8.ofNat n).toNat = n := by
    decide +kernel
  exact hbound count (by unfold maxRun at hle; omega) hpos

theorem ne_jump {value : UInt8} (h : 0x80 ≤ value) : value ≠ jump := by
  rintro rfl
  exact absurd h (by decide)

/-- The byte behind some records is where the next record starts. -/
theorem contains_recordStarts {rs : List (UInt8 × Nat)} (h : ∀ r ∈ rs, IsRun r) (offset : Nat)
    (rest : List UInt8) (hrest : rest ≠ []) :
    (recordStarts offset (rs.flatMap record ++ rest)).contains
      (offset + (rs.flatMap record).length) = true := by
  induction rs generalizing offset with
  | nil =>
    cases rest with
    | nil => exact absurd rfl hrest
    | cons first rest => cases rest <;> simp [recordStarts]
  | cons r rs ih =>
    have hr := h r List.mem_cons_self
    have ih := fun offset => ih (fun r hr => h r (List.mem_cons_of_mem _ hr)) offset
    obtain ⟨value, count⟩ := r
    obtain ⟨more, tail, hmore⟩ : ∃ more tail, rs.flatMap record ++ rest = more :: tail := by
      refine List.exists_cons_of_ne_nil ?_
      simp [hrest]
    rw [List.flatMap_cons, List.append_assoc, hmore]
    rw [hmore] at ih
    by_cases hone : count = 1
    · subst hone
      have hnext := ih (offset + 1)
      rw [record_one, List.singleton_append, recordStarts, if_pos hr.value, List.length_append]
      rw [show offset + ([value].length + (rs.flatMap record).length) =
        offset + 1 + (rs.flatMap record).length by simp only [List.length_singleton]; omega]
      simp only [List.contains_cons, hnext, Bool.or_true]
    · have hpos := hr.pos
      have hcount : 1 < count := by omega
      have hnext := ih (offset + 2)
      rw [record_many hcount, List.cons_append, List.singleton_append, recordStarts,
        if_neg (count_byte hpos hr.le).2.1, List.length_append]
      rw [show offset + ([UInt8.ofNat count, value].length + (rs.flatMap record).length) =
        offset + 2 + (rs.flatMap record).length by
          simp only [List.length_cons, List.length_nil]; omega]
      simp only [List.contains_cons, hnext, Bool.or_true]

/-! ## What the bytes hold -/

/-- From one offset to another the bytes hold the records of some values. -/
inductive Holds (bytes : Array UInt8) : Nat → List Int8 → Nat → Prop
  | nil (offset : Nat) : Holds bytes offset [] offset
  | value {offset stop : Nat} {byte : UInt8} {rest : List Int8} (hb : bytes[offset]? = some byte)
      (hv : 0x80 ≤ byte) (h : Holds bytes (offset + 1) rest stop) :
      Holds bytes offset (unbias byte :: rest) stop
  | run {offset stop count : Nat} {byte : UInt8} {rest : List Int8}
      (hc : bytes[offset]? = some (UInt8.ofNat count)) (hpos : 1 ≤ count) (hle : count ≤ maxRun)
      (hb : bytes[offset + 1]? = some byte) (h : Holds bytes (offset + 2) rest stop) :
      Holds bytes offset (List.replicate count (unbias byte) ++ rest) stop

theorem Holds.append {bytes : Array UInt8} {a b c : Nat} {xs ys : List Int8}
    (h : Holds bytes a xs b) (h' : Holds bytes b ys c) : Holds bytes a (xs ++ ys) c := by
  induction h with
  | nil => exact h'
  | value hb hv _ ih => exact .value hb hv (ih h')
  | run hc hpos hle hb _ ih =>
    rw [List.append_assoc]
    exact .run hc hpos hle hb (ih h')

/-- Whatever stands around them, the records of some runs hold their frames. -/
theorem holds_flatMap_record {rs : List (UInt8 × Nat)} (h : ∀ r ∈ rs, IsRun r)
    (before rest : List UInt8) :
    Holds (before ++ (rs.flatMap record ++ rest)).toArray before.length
      ((framesOf rs).map unbias) (before.length + (rs.flatMap record).length) := by
  induction rs generalizing before with
  | nil => exact .nil _
  | cons r rs ih =>
    have hr := h r List.mem_cons_self
    have ih := ih (fun r hr => h r (List.mem_cons_of_mem _ hr)) (before ++ record r)
    obtain ⟨value, count⟩ := r
    have hbytes : before ++ (((value, count) :: rs).flatMap record ++ rest) =
        before ++ record (value, count) ++ (rs.flatMap record ++ rest) := by simp
    have hframes : (framesOf ((value, count) :: rs)).map unbias =
        List.replicate count (unbias value) ++ (framesOf rs).map unbias := by
      simp [framesOf]
    have hstop : before.length + (((value, count) :: rs).flatMap record).length =
        (before ++ record (value, count)).length + (rs.flatMap record).length := by
      simp [Nat.add_assoc]
    rw [hbytes, hframes, hstop]
    by_cases hone : count = 1
    · subst hone
      refine @Holds.value _ _ _ value _ ?_ hr.value ?_
      · simp [record_one]
      · simpa [record_one] using ih
    · have hpos := hr.pos
      have hcount : 1 < count := by omega
      refine @Holds.run _ _ _ count value _ ?_ hpos hr.le ?_ ?_
      · simp [record_many hcount]
      · simp [record_many hcount]
      · simpa [record_many hcount] using ih

/-- **The records of a stretch of frames hold just these frames.** -/
theorem holds_records {frames : List UInt8} (hf : ∀ b ∈ frames, 0x80 ≤ b)
    (before rest : List UInt8) :
    Holds (before ++ (records frames ++ rest)).toArray before.length (frames.map unbias)
      (before.length + (records frames).length) := by
  have h := holds_flatMap_record (isRun_of_mem_runs hf) before rest
  rwa [framesOf_runs] at h

/-- From one offset to another the bytes hold a stretch with at least one frame. -/
theorem Holds.first {bytes : Array UInt8} {offset stop : Nat} {values : List Int8}
    (h : Holds bytes offset values stop) (hne : values ≠ []) :
    ∃ first, bytes[offset]? = some first ∧ first ≠ jump := by
  cases h with
  | nil => exact absurd rfl hne
  | value hb hv _ => exact ⟨_, hb, ne_jump hv⟩
  | run hc hpos hle _ _ => exact ⟨_, hc, (count_byte hpos hle).1⟩

/-! ## What a player plays -/

/-- A player that is about to read the record at an offset. -/
structure Player.At (p : Player) (offset : Nat) : Prop where
  position : p.position = offset
  runLeft : p.runLeft = 0
  halted : p.halted = false

/-- State behind a frame. -/
def Player.tick (p : Player) : Player := { p with runLeft := p.runLeft - 1 }

/-- A player plays some frames without a release. -/
inductive Player.Plays (bytes : Array UInt8) : Player → List Int8 → Player → Prop
  | nil (p : Player) : Player.Plays bytes p [] p
  | frame {p q p' : Player} {rest : List Int8} (hq : p.fetch bytes = some q)
      (h : Player.Plays bytes q.tick rest p') : Player.Plays bytes p (q.value :: rest) p'

namespace Player

variable {bytes : Array UInt8} {p p' p'' : Player}

theorem Plays.append {xs ys : List Int8} (h : p.Plays bytes xs p') (h' : p'.Plays bytes ys p'') :
    p.Plays bytes (xs ++ ys) p'' := by
  induction h with
  | nil => exact h'
  | frame hq _ ih => exact .frame hq (ih h')

/-- What is played is played frame by frame. -/
theorem Plays.take {xs : List Int8} (h : p.Plays bytes xs p') (count : Nat) :
    ∃ q, p.Plays bytes (xs.take count) q := by
  induction h generalizing count with
  | nil p => exact ⟨p, by simpa using .nil p⟩
  | @frame p q p' rest hq _ ih =>
    cases count with
    | zero => exact ⟨p, .nil p⟩
    | succ count =>
      obtain ⟨r, hr⟩ := ih count
      exact ⟨r, .frame hq hr⟩

/-- Frames without a release, and what is played behind them. -/
theorem Plays.playFrom {xs : List Int8} (h : p.Plays bytes xs p') (releaseAt : Option Nat)
    (start : Nat) (hr : ∀ frame ∈ releaseAt, start ≤ frame → start + xs.length ≤ frame)
    (count : Nat) :
    playFrom bytes releaseAt (xs.length + count) start p =
      (playFrom bytes releaseAt count (start + xs.length) p').map (xs ++ ·) := by
  induction h generalizing start with
  | nil p => simp
  | @frame p q p' rest hq _ ih =>
    have hnot : (releaseAt == some start) = false := by
      refine beq_eq_false_iff_ne.2 fun heq => ?_
      have hlt := hr start heq (Nat.le_refl start)
      simp only [List.length_cons] at hlt
      omega
    have ih := @ih (start + 1) fun frame hframe hle => by
      have hlt := hr frame hframe (by omega)
      simp only [List.length_cons] at hlt
      omega
    have hframe : p.frame bytes false = some q := by simp [Player.frame, hq]
    rw [List.length_cons, show rest.length + 1 + count = rest.length + count + 1 by omega,
      Curve.playFrom, hnot, hframe]
    have hstart : start + 1 + rest.length = start + (rest.length + 1) := by omega
    rw [hstart] at ih
    simp only [tick] at ih
    simp only [Option.bind_eq_bind, Option.bind_some, ih, Option.pure_def]
    cases Curve.playFrom bytes releaseAt count (start + (rest.length + 1)) p' <;> rfl

theorem seek_record {offset hops : Nat} {first : UInt8} (hb : bytes[offset]? = some first)
    (hne : first ≠ jump) : seek bytes hops offset = some (some offset) := by
  unfold seek
  simp [hb, hne]

/-- A jump leads to the record at its target. -/
theorem seek_jump {offset : Nat} {target first : UInt8} (hj : bytes[offset]? = some jump)
    (ht : bytes[offset + 1]? = some target) (hne : target.toNat ≠ offset)
    (hb : bytes[target.toNat]? = some first) (hfirst : first ≠ jump) :
    seek bytes bytes.size offset = some (some target.toNat) := by
  have hpos : 0 < bytes.size := by
    have hlt := (Array.getElem?_eq_some_iff.1 hj).1
    omega
  obtain ⟨hops, hhops⟩ : ∃ hops, bytes.size = hops + 1 := ⟨bytes.size - 1, by omega⟩
  rw [hhops]
  unfold seek
  simp [hj, ht, hne, seek_record hb hfirst]

theorem fetch_value {offset : Nat} {byte : UInt8} (hp : p.At offset)
    (hb : bytes[offset]? = some byte) (hv : 0x80 ≤ byte) :
    p.fetch bytes =
      some { p with position := offset + 1, runLeft := 1, value := unbias byte } := by
  simp [fetch, hp.position, hp.runLeft, hp.halted, seek_record hb (ne_jump hv), hb, hv]

theorem fetch_run {offset count : Nat} {byte : UInt8} (hp : p.At offset)
    (hc : bytes[offset]? = some (UInt8.ofNat count)) (hpos : 1 ≤ count) (hle : count ≤ maxRun)
    (hb : bytes[offset + 1]? = some byte) :
    p.fetch bytes =
      some { p with position := offset + 2, runLeft := count, value := unbias byte } := by
  obtain ⟨hne, hlt, hcount⟩ := count_byte hpos hle
  simp [fetch, hp.position, hp.runLeft, hp.halted, seek_record hc hne, hc, hb, hlt, hcount]

/-- Behind a jump a player reads what stands at its target. -/
theorem fetch_jump {offset : Nat} {target first : UInt8} (hp : p.At offset)
    (hj : bytes[offset]? = some jump) (ht : bytes[offset + 1]? = some target)
    (hne : target.toNat ≠ offset) (hb : bytes[target.toNat]? = some first)
    (hfirst : first ≠ jump) :
    p.fetch bytes = { p with position := target.toNat }.fetch bytes := by
  simp [fetch, hp.position, hp.runLeft, hp.halted, seek_jump hj ht hne hb hfirst,
    seek_record hb hfirst]

/-- A player in the middle of a run plays its value again. -/
theorem plays_rest (value : Int8) (count offset : Nat) :
    Plays bytes ⟨offset, count, value, false⟩ (List.replicate count value)
      ⟨offset, 0, value, false⟩ := by
  induction count with
  | zero => exact .nil _
  | succ count ih =>
    have hfetch : (⟨offset, count + 1, value, false⟩ : Player).fetch bytes =
        some ⟨offset, count + 1, value, false⟩ := by simp [fetch]
    exact .frame hfetch ih

end Player

open Player

/-- **A player plays the stretch in front of it to its end.** -/
theorem Holds.plays {bytes : Array UInt8} {offset stop : Nat} {values : List Int8}
    (h : Holds bytes offset values stop) {p : Player} (hp : p.At offset) :
    ∃ p', p.Plays bytes values p' ∧ p'.At stop := by
  induction h generalizing p with
  | nil => exact ⟨p, .nil p, hp⟩
  | @value offset stop byte rest hb hv _ ih =>
    obtain ⟨p', hplays, hat⟩ := @ih ⟨offset + 1, 0, unbias byte, p.halted⟩ ⟨rfl, rfl, hp.halted⟩
    exact ⟨p', .frame (fetch_value hp hb hv) hplays, hat⟩
  | @run offset stop count byte rest hc hpos hle hb _ ih =>
    obtain ⟨p', hplays, hat⟩ := @ih ⟨offset + 2, 0, unbias byte, false⟩ ⟨rfl, rfl, rfl⟩
    obtain ⟨left, rfl⟩ : ∃ left, count = left + 1 := ⟨count - 1, by omega⟩
    have hfetch := fetch_run hp hc hpos hle hb
    rw [hp.halted] at hfetch
    refine ⟨p', ?_, hat⟩
    rw [List.replicate_succ, List.cons_append]
    exact .frame hfetch ((plays_rest (unbias byte) left (offset + 2)).append hplays)

/-- At an offset the bytes hold a jump back to a stretch that ends there. -/
structure Loops (bytes : Array UInt8) (start : Nat) (values : List Int8) (stop : Nat) : Prop where
  holds : Holds bytes start values stop
  ne_nil : values ≠ []
  jumps : bytes[stop]? = some jump
  target : ∃ target : UInt8, bytes[stop + 1]? = some target ∧ target.toNat = start
  ne : start ≠ stop

/-- **A player plays a loop as often as asked.** -/
theorem Loops.plays {bytes : Array UInt8} {start stop : Nat} {values : List Int8}
    (h : Loops bytes start values stop) (turns : Nat) {p : Player} (hp : p.At stop) :
    ∃ p', p.Plays bytes (List.replicate turns values).flatten p' ∧ p'.At stop := by
  induction turns generalizing p with
  | zero => exact ⟨p, .nil p, hp⟩
  | succ turns ih =>
    obtain ⟨target, htarget, hstart⟩ := h.target
    obtain ⟨first, hfirst, hne⟩ := h.holds.first h.ne_nil
    -- behind the jump the player is where the stretch starts
    have hback : ({ p with position := start } : Player).At start := ⟨rfl, hp.runLeft, hp.halted⟩
    obtain ⟨q, hq, hstop⟩ := h.holds.plays hback
    obtain ⟨p', hp', hend⟩ := ih hstop
    have hturn : p.Plays bytes values q := by
      cases hq with
      | nil => exact absurd rfl h.ne_nil
      | frame hfetch hrest =>
        rw [← hstart] at hfetch hfirst
        rw [← fetch_jump hp h.jumps htarget (by rw [hstart]; exact h.ne) hfirst hne] at hfetch
        exact .frame hfetch hrest
    refine ⟨p', ?_, hend⟩
    rw [List.replicate_succ, List.flatten_cons]
    exact hturn.append hp'

/-! ## Cycles -/

/-- Frame that plays at a time when a curve of `count` frames returns to frame `loop` after the last
one. -/
def cycle (loop count time : Nat) : Nat :=
  if time < loop then time else loop + (time - loop) % (count - loop)

/-- Frame that plays at a time when the frames before `release` are sustained, from `loop` on, until
the note is released; then the rest plays once and the last frame is held. -/
def sustainedAt (count loop release : Nat) (releaseAt : Option Nat) (time : Nat) : Nat :=
  match releaseAt with
  | some start =>
    if start ≤ time then min (release + (time - start)) (count - 1) else cycle loop release time
  | none => cycle loop release time

theorem cycle_lt {loop count : Nat} (h : loop < count) (time : Nat) :
    cycle loop count time < count := by
  have hmod := Nat.mod_lt (time - loop) (show 0 < count - loop by omega)
  unfold cycle
  split <;> omega

theorem cycle_of_lt {loop count time : Nat} (h : time < count) : cycle loop count time = time := by
  unfold cycle
  split
  · rfl
  · rw [Nat.mod_eq_of_lt (by omega)]
    omega

/-- A loop of one frame holds it. -/
theorem cycle_last {count : Nat} (h : 0 < count) (time : Nat) :
    cycle (count - 1) count time = min time (count - 1) := by
  unfold cycle
  rw [show count - (count - 1) = 1 by omega, Nat.mod_one]
  split <;> omega

theorem getElem?_flatten_replicate {α : Type} (xs : List α) (turns index : Nat)
    (h : index < turns * xs.length) :
    (List.replicate turns xs).flatten[index]? = xs[index % xs.length]? := by
  induction turns generalizing index with
  | zero => simp at h
  | succ turns ih =>
    rw [List.replicate_succ, List.flatten_cons, List.getElem?_append]
    rw [Nat.succ_mul] at h
    split
    · rename_i hlt
      rw [Nat.mod_eq_of_lt hlt]
    · rename_i hle
      rw [ih _ (by omega), ← Nat.mod_eq_sub_mod (by omega)]

/-- The frames of a curve and some turns of its loop, up to a time. -/
theorem take_turns (xs : List Int8) {loop : Nat} (h : loop < xs.length) (count : Nat) :
    (xs ++ (List.replicate count (xs.drop loop)).flatten).take count =
      (List.range count).map fun time => xs.getD (cycle loop xs.length time) 0 := by
  refine List.ext_getElem? fun time => ?_
  by_cases ht : time < count
  · have hsize : count ≤ count * (xs.drop loop).length := by
      rw [List.length_drop]
      exact Nat.le_mul_of_pos_right count (by omega)
    have hword : (xs ++ (List.replicate count (xs.drop loop)).flatten)[time]? =
        xs[cycle loop xs.length time]? := by
      rw [List.getElem?_append]
      split
      · rename_i hlt
        rw [cycle_of_lt hlt]
      · rename_i hle
        rw [getElem?_flatten_replicate _ _ _ (by omega), List.getElem?_drop, List.length_drop,
          cycle, if_neg (by omega),
          show time - loop = time - xs.length + (xs.length - loop) by omega,
          Nat.add_mod_right]
    rw [List.getElem?_take_of_lt ht, hword, List.getElem?_map, List.getElem?_range ht,
      List.getElem?_eq_getElem (cycle_lt h time), Option.map_some,
      ← List.getElem_eq_getD (h := cycle_lt h time)]
  · rw [List.getElem?_take_eq_none (by omega), List.getElem?_eq_none (by simp; omega)]

/-- **A stretch with a loop behind it is played as a cycle.** -/
theorem Loops.plays_cycle {bytes : Array UInt8} {offset start stop : Nat} {values loop : List Int8}
    (h : Loops bytes start loop stop) (hv : Holds bytes offset values start) {p : Player}
    (hp : p.At offset) (count : Nat) :
    ∃ p', p.Plays bytes ((List.range count).map fun time =>
      (values ++ loop).getD (cycle values.length (values ++ loop).length time) 0) p' := by
  obtain ⟨q, hq, hstart⟩ := hv.plays hp
  obtain ⟨r, hr, hstop⟩ := h.holds.plays hstart
  obtain ⟨p', hp', -⟩ := h.plays count hstop
  have hlt : values.length < (values ++ loop).length := by
    have hpos := List.length_pos_iff.2 h.ne_nil
    rw [List.length_append]
    omega
  have hall := (hq.append hr).append hp'
  have hturns := take_turns (values ++ loop) hlt count
  rw [List.drop_left] at hturns
  rw [← hturns]
  exact hall.take count

/-! ## Plays with and without a release -/

variable {curve : List UInt8}

/-- A curve without a release entry plays on when its note is released. -/
theorem playFrom_silent {bytes : Array UInt8} (h : bytes[0]? = some 0) (releaseAt : Option Nat)
    (count start : Nat) (p : Player) :
    playFrom bytes releaseAt count start p = playFrom bytes none count start p := by
  induction count generalizing start p with
  | zero => rfl
  | succ count ih =>
    have hframe : ∀ released, p.frame bytes released = p.fetch bytes := by
      intro released
      cases released <;> simp [Player.frame, Player.release, h]
    rw [playFrom, playFrom, hframe, hframe]
    simp only [ih]

theorem play_silent (h : curve[0]? = some 0) {values : List Int8} {p : Player}
    (hp : ({} : Player).Plays curve.toArray values p) (releaseAt : Option Nat) :
    play curve values.length releaseAt = some values := by
  have hplay := hp.playFrom none 0 (by simp) 0
  have h0 : curve.toArray[0]? = some 0 := by rw [List.getElem?_toArray, h]
  rw [play, playFrom_silent h0]
  simpa [playFrom] using hplay

/-- A player whose note is released. -/
def Player.released (p : Player) (entry : UInt8) : Player :=
  { p with position := entry.toNat, runLeft := 0, halted := false }

theorem playFrom_released {bytes : Array UInt8} {entry : UInt8} (h : bytes[0]? = some entry)
    (hne : entry ≠ 0) {p p' : Player} {values : List Int8} (start : Nat)
    (hp : (p.released entry).Plays bytes values p') :
    playFrom bytes (some start) values.length start p = some values := by
  cases hp with
  | nil => rfl
  | @frame _ q _ rest hq hrest =>
    have hframe : p.frame bytes true = some q := by
      rw [← hq]
      simp [Player.frame, Player.release, h, hne, Player.released]
    have hplay := hrest.playFrom (some start) (start + 1)
      (fun frame hframe hle => by cases hframe; omega) 0
    rw [List.length_cons, playFrom, show (some start == some start) = true by simp, hframe]
    simp only [Player.tick, Nat.add_zero] at hplay
    simp [hplay, playFrom]

/-- **A release takes effect on its very frame**, whatever the player was doing. -/
theorem play_released {entry : UInt8} (h : curve[0]? = some entry) (hne : entry ≠ 0)
    {sustain tail : List Int8} {p p' : Player} (hs : ({} : Player).Plays curve.toArray sustain p)
    (ht : (p.released entry).Plays curve.toArray tail p') :
    play curve (sustain.length + tail.length) (some sustain.length) = some (sustain ++ tail) := by
  have h0 : curve.toArray[0]? = some entry := by rw [List.getElem?_toArray, h]
  have hplay := hs.playFrom (some sustain.length) 0 (by simp) tail.length
  rw [Nat.zero_add, playFrom_released h0 hne _ ht] at hplay
  exact hplay

theorem play_unreleased {values : List Int8} {p : Player}
    (hp : ({} : Player).Plays curve.toArray values p) (releaseAt : Option Nat)
    (h : ∀ frame ∈ releaseAt, values.length ≤ frame) :
    play curve values.length releaseAt = some values := by
  have hplay := hp.playFrom releaseAt 0
    (fun frame hframe _ => by simpa using h frame hframe) 0
  simpa [play, playFrom] using hplay

/-- A curve plays its sustain part up to the release and from there on its release part. -/
theorem play_parts {entry : UInt8} (h : curve[0]? = some entry) (hne : entry ≠ 0)
    (sustain : Nat → Int8) {tail : Nat → Int8}
    (hs : ∀ count, ∃ p, ({} : Player).Plays curve.toArray ((List.range count).map sustain) p)
    (ht : ∀ (p : Player) count, ∃ p',
      (p.released entry).Plays curve.toArray ((List.range count).map tail) p')
    (count : Nat) (releaseAt : Option Nat) :
    play curve count releaseAt = some ((List.range count).map fun time =>
      match releaseAt with
      | some start => if start ≤ time then tail (time - start) else sustain time
      | none => sustain time) := by
  have hunreleased : (∀ frame ∈ releaseAt, count ≤ frame) →
      play curve count releaseAt = some ((List.range count).map sustain) := by
    intro hr
    obtain ⟨p, hp⟩ := hs count
    have hplay := play_unreleased hp releaseAt (by simpa using hr)
    rwa [List.length_map, List.length_range] at hplay
  cases releaseAt with
  | none => exact hunreleased (by simp)
  | some start =>
    by_cases hle : count ≤ start
    · rw [hunreleased (by simpa using hle)]
      refine congrArg some (List.map_congr_left fun time htime => ?_)
      have hlt := List.mem_range.1 htime
      exact (if_neg (by omega)).symm
    · obtain ⟨p, hp⟩ := hs start
      obtain ⟨p', hp'⟩ := ht p (count - start)
      have hplay := play_released h hne hp hp'
      simp only [List.length_map, List.length_range] at hplay
      have hcount : start + (count - start) = count := by omega
      have hrange : List.range count =
          List.range start ++ (List.range (count - start)).map (start + ·) := by
        rw [← List.range_add, hcount]
      rw [hcount] at hplay
      rw [hplay, hrange, List.map_append, List.map_map]
      congr 2
      · refine List.map_congr_left fun time htime => ?_
        have hlt := List.mem_range.1 htime
        exact (if_neg (by omega)).symm
      · refine List.map_congr_left fun time _ => ?_
        simp

/-! ## Encoded sequences of frames -/

theorem flatMap_record_runs (xs ys : List UInt8) :
    (runs xs ++ runs ys).flatMap record = records xs ++ records ys := List.flatMap_append

theorem framesOf_append (rs ss : List (UInt8 × Nat)) :
    framesOf (rs ++ ss) = framesOf rs ++ framesOf ss := List.flatMap_append

theorem getElem?_behind (before rest : List UInt8) (first second : UInt8) :
    (before ++ first :: second :: rest).toArray[before.length]? = some first ∧
      (before ++ first :: second :: rest).toArray[before.length + 1]? = some second := by
  simp

theorem length_flatMap_record_pos {rs : List (UInt8 × Nat)} (hne : framesOf rs ≠ []) :
    0 < (rs.flatMap record).length := by
  cases rs with
  | nil => exact absurd rfl hne
  | cons r rs =>
    rw [List.flatMap_cons, List.length_append]
    unfold record
    split <;> simp only [List.length_cons] <;> omega

/-- Some runs and a jump back to the first of them are a loop. -/
theorem loops_flatMap_record {rs : List (UInt8 × Nat)} (h : ∀ r ∈ rs, IsRun r)
    (hne : framesOf rs ≠ []) (before : List UInt8) (hlen : before.length < 256)
    (rest : List UInt8) :
    Loops (before ++ (rs.flatMap record ++ jump :: UInt8.ofNat before.length :: rest)).toArray
      before.length ((framesOf rs).map unbias) (before.length + (rs.flatMap record).length) := by
  have hjump := getElem?_behind (before ++ rs.flatMap record) rest jump
    (UInt8.ofNat before.length)
  rw [List.append_assoc, List.length_append] at hjump
  have hpos := length_flatMap_record_pos hne
  exact
    { holds := holds_flatMap_record h before _
      ne_nil := by simpa using hne
      jumps := hjump.1
      target := ⟨_, hjump.2, by simp; omega⟩
      ne := by omega }

/-- **A stretch of records and a loop behind it, wherever they stand, are played as a cycle.** -/
theorem plays_records {opening : List UInt8} (ho : ∀ b ∈ opening, 0x80 ≤ b)
    {rs : List (UInt8 × Nat)} (h : ∀ r ∈ rs, IsRun r) (hne : framesOf rs ≠ [])
    (before : List UInt8) (hlen : before.length + opening.length < 256) (rest : List UInt8)
    {p : Player} (hp : p.At before.length) (count : Nat) :
    ∃ p', p.Plays (before ++ records opening ++ (rs.flatMap record ++
        jump :: UInt8.ofNat (before ++ records opening).length :: rest)).toArray
      ((List.range count).map fun time => ((opening ++ framesOf rs).map unbias).getD
        (cycle opening.length (opening.length + (framesOf rs).length) time) 0) p' := by
  have hsize := length_records ho
  have hloop := loops_flatMap_record h hne (before ++ records opening)
    (by rw [List.length_append]; omega) rest
  have hstretch := holds_records ho before
    (rs.flatMap record ++ jump :: UInt8.ofNat (before ++ records opening).length :: rest)
  rw [← List.append_assoc, ← List.length_append] at hstretch
  simpa using hloop.plays_cycle hstretch hp count

theorem stretch_append (frames : List UInt8) {a b c : Nat} (hab : a ≤ b) (hbc : b ≤ c)
    (hc : c ≤ frames.length) :
    stretch frames a b ++ stretch frames b c = stretch frames a c := by
  have hsplit : frames.take c = frames.take b ++ (frames.take c).drop b := by
    rw [show frames.take b = (frames.take c).take b by rw [List.take_take, Nat.min_eq_left hbc],
      List.take_append_drop]
  have hlen : (frames.take b).length = b := by rw [List.length_take]; omega
  rw [stretch, stretch, stretch, hsplit, List.drop_append, List.drop_append, hlen,
    Nat.sub_eq_zero_of_le hab, Nat.sub_self]
  simp

theorem length_stretch (frames : List UInt8) {a b : Nat} (h : b ≤ frames.length) :
    (stretch frames a b).length = b - a := by
  rw [stretch, List.length_drop, List.length_take]
  omega

section Encode

variable {frames : List UInt8} (hf : ∀ b ∈ frames, 0x80 ≤ b)
include hf

theorem mem_stretch (a b : Nat) : ∀ x ∈ stretch frames a b, 0x80 ≤ x := fun x hx =>
  hf x (List.mem_of_mem_take (List.mem_of_mem_drop hx))

theorem isRun_stretches (a b c d : Nat) :
    ∀ r ∈ runs (stretch frames a b) ++ runs (stretch frames c d), IsRun r := by
  intro r hr
  rcases List.mem_append.1 hr with hr | hr
  · exact isRun_of_mem_runs (mem_stretch hf a b) r hr
  · exact isRun_of_mem_runs (mem_stretch hf c d) r hr

/-- A loop that starts behind some records starts a record. -/
theorem close_eq (loop : Nat) (entry : UInt8) (rest : List UInt8) (target : Nat) :
    close (entry :: (records (stretch frames 0 loop) ++ rest)) target
        (some ((records (stretch frames 0 loop)).length + 1)) =
      .ok (entry :: (records (stretch frames 0 loop) ++ rest) ++ [jump, UInt8.ofNat target]) := by
  have hstart := contains_recordStarts (isRun_of_mem_runs (mem_stretch hf 0 loop)) 1
    (rest ++ [jump, UInt8.ofNat target]) (by simp)
  rw [← List.append_assoc, Nat.add_comm] at hstart
  exact if_pos hstart

/-- Bytes of a curve that returns to a frame. -/
theorem encodeRuns_loop_eq {loop : Nat} (h : loop < frames.length) :
    encodeRuns frames (some loop) none = .ok
      ((0 :: records (stretch frames 0 loop)) ++
        ((runs (stretch frames loop (frames.length - 1)) ++
          runs (stretch frames (frames.length - 1) frames.length)).flatMap record ++
          [jump, UInt8.ofNat (0 :: records (stretch frames 0 loop)).length])) := by
  have hmax : max loop (frames.length - 1) = frames.length - 1 := by omega
  simp only [encodeRuns, hmax, flatMap_record_runs, List.cons_append, List.append_assoc,
    List.length_cons]
  rw [close_eq hf]
  simp only [List.cons_append, List.append_assoc]

omit hf in
/-- The last frame is a record of its own. -/
theorem records_last (hne : frames ≠ []) :
    (records (stretch frames (frames.length - 1) frames.length)).length = 1 := by
  have hpos := List.length_pos_iff.2 hne
  have hlen := length_stretch frames (a := frames.length - 1) (Nat.le_refl frames.length)
  obtain ⟨last, hlast⟩ : ∃ last, stretch frames (frames.length - 1) frames.length = [last] :=
    List.length_eq_one_iff.1 (by omega)
  rw [hlast]
  rfl

/-- A curve without a loop returns to its last frame. -/
theorem encodeRuns_hold_eq (hne : frames ≠ []) :
    encodeRuns frames none none = encodeRuns frames (some (frames.length - 1)) none := by
  have hpos := List.length_pos_iff.2 hne
  have hlast := records_last hne
  have hempty : stretch frames (frames.length - 1) (frames.length - 1) = [] := by simp [stretch]
  rw [encodeRuns_loop_eq hf (by omega), hempty, flatMap_record_runs]
  simp only [encodeRuns, close, Option.all_none, if_true, List.length_cons, List.length_append,
    hlast]
  simp [records, runs]

/-- **A curve without a release walks through its frames and then cycles** from its loop on, or else
holds the last frame, whether the note is released or not. -/
theorem encodeRuns_loops (hlen : frames.length ≤ 241) (loop : Option Nat) (hne : frames ≠ [])
    (hloop : ∀ l ∈ loop, l < frames.length) :
    ∃ curve, encodeRuns frames loop none = .ok curve ∧ ∀ count releaseAt,
      play curve count releaseAt = some ((List.range count).map fun time =>
        (frames.map unbias).getD
          (cycle (loop.getD (frames.length - 1)) frames.length time) 0) := by
  have hpos := List.length_pos_iff.2 hne
  obtain ⟨l, hl, hencode, hgetD⟩ : ∃ l, l < frames.length ∧
      encodeRuns frames loop none = encodeRuns frames (some l) none ∧
      loop.getD (frames.length - 1) = l := by
    cases loop with
    | none => exact ⟨_, by omega, encodeRuns_hold_eq hf hne, rfl⟩
    | some l => exact ⟨l, hloop l rfl, rfl, rfl⟩
  rw [hencode, hgetD]
  refine ⟨_, encodeRuns_loop_eq hf hl, fun count releaseAt => ?_⟩
  have hrs : framesOf (runs (stretch frames l (frames.length - 1)) ++
      runs (stretch frames (frames.length - 1) frames.length)) =
      stretch frames l frames.length := by
    rw [framesOf_append, framesOf_runs, framesOf_runs,
      stretch_append frames (by omega) (by omega) (Nat.le_refl _)]
  have hopening := length_stretch frames (a := 0) (b := l) (by omega)
  have hrest := length_stretch frames (a := l) (Nat.le_refl frames.length)
  have hframes : stretch frames 0 l ++ stretch frames l frames.length = frames := by
    rw [stretch_append frames (Nat.zero_le _) (by omega) (Nat.le_refl _)]
    simp [stretch]
  obtain ⟨p, hp⟩ := plays_records (mem_stretch hf 0 l)
    (isRun_stretches hf l (frames.length - 1) (frames.length - 1) frames.length)
    (by rw [hrs]; exact List.ne_nil_of_length_pos (by omega)) [0]
    (by rw [List.length_singleton]; omega) [] (p := {}) ⟨rfl, rfl, rfl⟩ count
  rw [hrs, hframes, hopening, hrest, show l - 0 + (frames.length - l) = frames.length by omega,
    Nat.sub_zero] at hp
  have hplay := play_silent rfl hp releaseAt
  rwa [List.length_map, List.length_range] at hplay

/-- Bytes of a curve with a release: a sustain part that returns to the loop, and behind it, at the
release entry, the rest with its last frame held. -/
theorem encodeRuns_release_eq {loop release : Nat} (hl : loop < release)
    (hr : release < frames.length) :
    ∃ entry : UInt8, ∃ sustain : List UInt8,
      sustain = (entry :: records (stretch frames 0 loop)) ++
        (records (stretch frames loop release) ++
          [jump, UInt8.ofNat (entry :: records (stretch frames 0 loop)).length]) ∧
      entry = UInt8.ofNat sustain.length ∧
      encodeRuns frames (some loop) (some release) = .ok
        (sustain ++ records (stretch frames release (frames.length - 1)) ++
          (records (stretch frames (frames.length - 1) frames.length) ++
            [jump, UInt8.ofNat
              (sustain ++ records (stretch frames release (frames.length - 1))).length])) := by
  have hlast := records_last (show frames ≠ [] from List.ne_nil_of_length_pos (by omega))
  have hmax : max release (frames.length - 1) = frames.length - 1 := by omega
  refine ⟨UInt8.ofNat ((records (stretch frames 0 loop)).length +
    ((records (stretch frames loop release)).length + 2) + 1), _, rfl, ?_, ?_⟩
  · simp only [List.length_append, List.length_cons, List.length_nil]
    congr 1
    omega
  · simp only [encodeRuns, hmax, if_neg (Nat.not_le.2 hl), List.cons_append, List.append_assoc]
    rw [close_eq hf]
    simp only [List.length_append, List.length_cons, List.length_nil, hlast, List.cons_append,
      List.append_assoc, List.nil_append]
    rfl

/-- The sustain part cycles from the loop to the release. -/
theorem plays_sustain {loop release : Nat} (hlen : release < 240) (hl : loop < release)
    (hr : release ≤ frames.length) (entry : UInt8) (rest : List UInt8) (count : Nat) :
    ∃ p, ({} : Player).Plays ([entry] ++ records (stretch frames 0 loop) ++
        (records (stretch frames loop release) ++
          jump :: UInt8.ofNat ([entry] ++ records (stretch frames 0 loop)).length :: rest)).toArray
      ((List.range count).map fun time =>
        (frames.map unbias).getD (cycle loop release time) 0) p := by
  have hturn := length_stretch frames (a := loop) hr
  obtain ⟨p, hp⟩ := plays_records (mem_stretch hf 0 loop)
    (isRun_of_mem_runs (mem_stretch hf loop release))
    (by rw [framesOf_runs]; exact List.ne_nil_of_length_pos (by omega)) [entry]
    (by rw [List.length_singleton, length_stretch frames (by omega)]; omega) rest (p := {})
    ⟨rfl, rfl, rfl⟩ count
  refine ⟨p, ?_⟩
  rw [framesOf_runs, stretch_append frames (Nat.zero_le _) (by omega) hr, hturn,
    length_stretch frames (by omega), show loop - 0 + (release - loop) = release by omega,
    Nat.sub_zero] at hp
  have hframe : ∀ time, ((stretch frames 0 release).map unbias).getD (cycle loop release time) 0 =
      (frames.map unbias).getD (cycle loop release time) 0 := by
    intro time
    have hlt := cycle_lt hl time
    rw [stretch, List.drop_zero, List.getD_eq_getElem?_getD, List.getD_eq_getElem?_getD,
      List.getElem?_map, List.getElem?_map, List.getElem?_take_of_lt hlt]
  simp only [hframe] at hp
  exact hp

/-- The release part plays the rest and holds the last frame. -/
theorem plays_tail {release : Nat} (hr : release < frames.length) (before : List UInt8)
    (hlen : before.length + (frames.length - release) < 256) {p : Player}
    (hp : p.At before.length) (count : Nat) :
    ∃ p', p.Plays (before ++ records (stretch frames release (frames.length - 1)) ++
        (records (stretch frames (frames.length - 1) frames.length) ++
          [jump, UInt8.ofNat
            (before ++ records (stretch frames release (frames.length - 1))).length])).toArray
      ((List.range count).map fun time =>
        (frames.map unbias).getD (min (release + time) (frames.length - 1)) 0) p' := by
  have hopening := length_stretch frames (a := release) (b := frames.length - 1) (by omega)
  have hlast := length_stretch frames (a := frames.length - 1) (Nat.le_refl frames.length)
  obtain ⟨p', hp'⟩ := plays_records (mem_stretch hf release (frames.length - 1))
    (isRun_of_mem_runs (mem_stretch hf (frames.length - 1) frames.length))
    (by rw [framesOf_runs]; exact List.ne_nil_of_length_pos (by omega)) before
    (by omega) [] hp count
  refine ⟨p', ?_⟩
  rw [framesOf_runs, stretch_append frames (by omega) (by omega) (Nat.le_refl _), hopening,
    hlast] at hp'
  have hframe : ∀ time, ((stretch frames release frames.length).map unbias).getD
      (cycle (frames.length - 1 - release)
        (frames.length - 1 - release + (frames.length - (frames.length - 1))) time) 0 =
      (frames.map unbias).getD (min (release + time) (frames.length - 1)) 0 := by
    intro time
    have hcycle := cycle_last (show 0 < frames.length - release by omega) time
    rw [show frames.length - release - 1 = frames.length - 1 - release by omega] at hcycle
    rw [show frames.length - 1 - release + (frames.length - (frames.length - 1)) =
      frames.length - release by omega, hcycle, stretch, List.take_length,
      List.getD_eq_getElem?_getD, List.getD_eq_getElem?_getD, List.getElem?_map, List.getElem?_map,
      List.getElem?_drop, show release + min time (frames.length - 1 - release) =
        min (release + time) (frames.length - 1) by omega]
  simp only [hframe] at hp'
  exact hp'

/-- **A curve with a release sustains until the note is released**, and from that very frame on
plays the rest and holds the last frame. -/
theorem encodeRuns_sustains (hlen : frames.length ≤ 240) {loop release : Nat}
    (hl : loop < release) (hr : release < frames.length) :
    ∃ curve, encodeRuns frames (some loop) (some release) = .ok curve ∧ ∀ count releaseAt,
      play curve count releaseAt = some ((List.range count).map fun time =>
        (frames.map unbias).getD (sustainedAt frames.length loop release releaseAt time) 0) := by
  obtain ⟨entry, sustain, hsustain, hentry, hencode⟩ := encodeRuns_release_eq hf hl hr
  refine ⟨_, hencode, fun count releaseAt => ?_⟩
  have hopening := length_records (mem_stretch hf 0 loop)
  have hturn := length_records (mem_stretch hf loop release)
  rw [length_stretch frames (by omega)] at hopening hturn
  have hsize : 0 < sustain.length ∧ sustain.length ≤ release + 3 := by
    rw [hsustain]
    simp only [List.length_append, List.length_cons, List.length_nil]
    omega
  have hoffset : entry.toNat = sustain.length := by
    rw [hentry, UInt8.toNat_ofNat', Nat.mod_eq_of_lt (by omega)]
  have hne : entry ≠ 0 := fun h0 => by
    rw [h0, UInt8.toNat_zero] at hoffset
    omega
  have hfirst : ∀ rest, (sustain ++ rest)[0]? = some entry := by simp [hsustain]
  have hplay := play_parts (by rw [List.append_assoc]; exact hfirst _) hne
    (fun time => (frames.map unbias).getD (cycle loop release time) 0)
    (fun count => by
      have hp := plays_sustain hf (by omega) hl (by omega) entry
        (records (stretch frames release (frames.length - 1)) ++
          (records (stretch frames (frames.length - 1) frames.length) ++
            [jump, UInt8.ofNat
              (sustain ++ records (stretch frames release (frames.length - 1))).length])) count
      simpa [hsustain] using hp)
    (fun p count => plays_tail hf hr sustain (by omega)
      (p := p.released entry) ⟨hoffset, rfl, rfl⟩ count) count releaseAt
  rw [hplay]
  congr 2
  funext time
  cases releaseAt with
  | none => rfl
  | some start =>
    simp only [sustainedAt]
    split <;> rfl

end Encode

end Chiptune.Curve
