import Chiptune.Channel
import Chiptune.Proofs.Instructions
import Chiptune.Stream.Join
import Chiptune.Stream.Voice

/-!
# What a driver does with a stream

`Instruction.played` says which rows an instruction plays, and `Driver.exec` what it does to the
settings of the driver; `Driver.trace` puts both together: the rows that some instructions play,
each with the settings it is played with. `Driver.play` follows a stream to its end and from there
back to the loop label, a number of times.

* `trace_join`: joining rows to a stream neither loses nor adds a row, and each row is played with
  the settings behind its own instructions.
* `play_loop`: from the end of a stream a driver plays what stands behind the loop label once more
  for every jump.
-/

set_option autoImplicit false

namespace Chiptune

/-- What a row plays. -/
inductive Played
  | note (value : UInt8)
  /-- Sample of a slot, counted from 1. -/
  | sample (slot : Nat)
  | stop
  | release
  | empty
  deriving DecidableEq

namespace Instruction

/-- What a one-byte note plays: on the sample channel its index is the slot of a sample. -/
def struck (channel : Channel) (value : UInt8) : Played :=
  if value = 0 then .stop
  else if channel = .dpcm then .sample (value - noteBias).toNat
  else .note value

/-- Rows that an instruction plays. -/
def played (channel : Channel) : Instruction → List Played
  | note value emptyRow => struck channel value :: if emptyRow then [.empty] else []
  | emptyRows count => List.replicate count .empty
  | op .extendedNote [value] _ => [.note value]
  | op .slide [_, source, _] _ => [.note source]
  | op .release _ _ => [.release]
  | _ => []

end Instruction

/-- Settings of a driver. Overrides are the addresses of their curves; a duty or modulation of
`none` is the instrument's own. -/
structure Driver where
  instrument : Option Nat := none
  volume : UInt8 := Stream.initialVolume
  finePitch : Int8 := 0
  vibrato : Option Target := none
  arpeggio : Option Target := none
  duty : Option UInt8 := none
  fdsModSpeed : Option UInt16 := none
  fdsModDepth : Option UInt8 := none

namespace Driver

/-- What an instruction does to the settings. -/
def exec (d : Driver) : Instruction → Driver
  | .instrument slot =>
    { d with instrument := some slot, duty := none, fdsModSpeed := none, fdsModDepth := none }
  | .op .volume [value] _ => { d with volume := value }
  | .op .finePitch [value] _ => { d with finePitch := value.toInt8 }
  | .op .vibratoOverride _ [curve] => { d with vibrato := some curve }
  | .op .clearPitchOverride _ _ => { d with vibrato := none }
  | .op .arpOverride _ [curve] => { d with arpeggio := some curve }
  | .op .clearArpOverride _ _ => { d with arpeggio := none }
  | .op .duty [value] _ => { d with duty := some value }
  | .op .fdsModSpeed [low, high] _ =>
    { d with fdsModSpeed := some (UInt16.ofNat (low.toNat + 256 * high.toNat)) }
  | .op .fdsModDepth [value] _ => { d with fdsModDepth := some value }
  | _ => d

/-- Settings behind some instructions. -/
def after (d : Driver) (is : List Instruction) : Driver := is.foldl exec d

/-- Rows that some instructions play, with the settings of each. -/
def trace (channel : Channel) (d : Driver) : List Instruction → List (Played × Driver)
  | [] => []
  | i :: rest => (i.played channel).map (·, d.exec i) ++ trace channel (d.exec i) rest

/-- Whether an instruction ends the stretch that a driver plays. -/
def leaves : Instruction → Bool
  | .op .halt _ _ | .op .jump _ _ => true
  | _ => false

/-- Instructions behind a label. -/
def behind (id : Nat) : List Instruction → List Instruction
  | [] => []
  | i :: rest => if i = .label id then rest else behind id rest

/-- Rows that a driver plays from some instructions of a stream on, with a number of jumps. -/
def play (channel : Channel) (stream : List Instruction) :
    Nat → Driver → List Instruction → List (Played × Driver)
  | _, _, [] => []
  | _, _, .op .halt _ _ :: _ => []
  | 0, _, .op .jump _ _ :: _ => []
  | jumps + 1, d, .op .jump _ [.symbol id] :: _ => play channel stream jumps d (behind id stream)
  | jumps, d, i :: rest =>
    (i.played channel).map (·, d.exec i) ++ play channel stream jumps (d.exec i) rest
termination_by jumps _ is => (jumps, is.length)

/-- Rows of a number of passes of a loop. -/
def passes (channel : Channel) (loop : List Instruction) : Nat → Driver → List (Played × Driver)
  | 0, _ => []
  | n + 1, d => trace channel d loop ++ passes channel loop n (d.after loop)

variable {channel : Channel}

@[simp]
theorem after_append (d : Driver) (is js : List Instruction) :
    d.after (is ++ js) = (d.after is).after js :=
  List.foldl_append

theorem trace_append (d : Driver) (is js : List Instruction) :
    trace channel d (is ++ js) = trace channel d is ++ trace channel (d.after is) js := by
  induction is generalizing d with
  | nil => rfl
  | cons i is ih =>
    simp only [List.cons_append, trace, ih, List.append_assoc]
    rfl

/-- The rows of a trace are the rows that the instructions play. -/
theorem map_trace (d : Driver) (is : List Instruction) :
    (trace channel d is).map Prod.fst = is.flatMap (·.played channel) := by
  induction is generalizing d with
  | nil => rfl
  | cons i is ih =>
    simp only [trace, List.map_append, List.map_map, List.flatMap_cons, ih]
    congr 1
    exact List.map_id' _

/-! ## Following jumps -/

/-- A stretch without jumps and halts is played to its end. -/
theorem play_append {stream is : List Instruction} (h : ∀ i ∈ is, leaves i = false) (jumps : Nat)
    (d : Driver) (rest : List Instruction) :
    play channel stream jumps d (is ++ rest) =
      trace channel d is ++ play channel stream jumps (d.after is) rest := by
  induction is generalizing d with
  | nil => rfl
  | cons i is ih =>
    have ih := ih (fun j hj => h j (List.mem_cons_of_mem _ hj)) (d.exec i)
    have hi := h i List.mem_cons_self
    rw [List.cons_append, play, ih, trace, List.append_assoc]
    · rfl
    · rintro _ _ rfl
      cases hi
    · rintro _ _ - rfl
      cases hi
    · rintro _ _ _ - rfl
      cases hi

theorem behind_append {id : Nat} {before : List Instruction} (h : .label id ∉ before)
    (rest : List Instruction) : behind id (before ++ .label id :: rest) = rest := by
  induction before with
  | nil => simp [behind]
  | cons i before ih =>
    rw [List.mem_cons, not_or] at h
    rw [List.cons_append, behind, if_neg (Ne.symm h.1), ih h.2]

/-- A stretch that ends with a halt is played once. -/
theorem play_halt {is : List Instruction} (h : ∀ i ∈ is, leaves i = false) (jumps : Nat)
    (d : Driver) (stream : List Instruction) (bytes : List UInt8) (targets : List Target) :
    play channel stream jumps d (is ++ [.op .halt bytes targets]) = trace channel d is := by
  rw [play_append h]
  cases jumps <;> simp [play]

/-- **A stretch that ends with a jump is played, and then what follows the label of the jump as
often as jumps are followed.** -/
theorem play_loop (channel : Channel) {before loop : List Instruction} {id : Nat}
    (hb : .label id ∉ before) (hl : ∀ i ∈ loop, leaves i = false) (jumps : Nat) (d : Driver)
    {is : List Instruction} (hi : ∀ i ∈ is, leaves i = false) :
    play channel (before ++ .label id :: (loop ++ [.op .jump [] [.symbol id]])) jumps d
        (is ++ [.op .jump [] [.symbol id]]) =
      trace channel d is ++ passes channel loop jumps (d.after is) := by
  induction jumps generalizing d is with
  | zero =>
    rw [play_append hi]
    simp [play, passes]
  | succ jumps ih =>
    rw [play_append hi, play, behind_append hb, ih _ hl]
    rfl

end Driver

/-! ## Rows joined to a stream -/

namespace Stream

open Driver

variable {channel : Channel}

/-- Rows that a piece of a stream plays, and the settings behind it: a row that nothing takes up
is an empty row. -/
def Piece.trace (channel : Channel) (d : Driver) : Piece → List (Played × Driver)
  | mark _ => []
  | row is advances =>
    Driver.trace channel d is ++ if advances then [] else [(.empty, d.after is)]

/-- Settings behind a piece. -/
def Piece.after (d : Driver) : Piece → Driver
  | mark _ => d
  | row is _ => d.after is

/-- Rows that a sequence of pieces plays. -/
def tracePieces (channel : Channel) (d : Driver) : List Piece → List (Played × Driver)
  | [] => []
  | p :: rest => p.trace channel d ++ tracePieces channel (p.after d) rest

/-- Settings behind a sequence of pieces. -/
def afterPieces (d : Driver) (pieces : List Piece) : Driver := pieces.foldl Piece.after d

/-- Rows that are not written yet. -/
def Pending.trace (channel : Channel) (d : Driver) (p : Pending) : List (Played × Driver) :=
  p.note.toList.map (fun value => (Instruction.struck channel value, d)) ++
    List.replicate p.empty (.empty, d)

theorem after_emptyRows (d : Driver) (n size : Nat) :
    d.after (List.replicate n (.emptyRows size)) = d := by
  induction n with
  | zero => rfl
  | succ n ih => exact ih

theorem after_emptyRuns (k : Kernel) (d : Driver) (count : Nat) :
    d.after (emptyRuns k count) = d := by
  rw [emptyRuns, after_append, after_emptyRows]
  split <;> rfl

theorem trace_emptyRuns (k : Kernel) (d : Driver) (count : Nat) :
    Driver.trace channel d (emptyRuns k count) = List.replicate count (.empty, d) := by
  have hrep : ∀ n, Driver.trace channel d (List.replicate n (.emptyRows k.maxEmptyRows)) =
      List.replicate (n * k.maxEmptyRows) (.empty, d) := by
    intro n
    induction n with
    | zero => simp [Driver.trace]
    | succ n ih =>
      rw [List.replicate_succ, Driver.trace]
      simp only [Instruction.played, exec, ih, List.map_replicate]
      rw [List.replicate_append_replicate, Nat.succ_mul, Nat.add_comm]
  have h := Nat.div_add_mod count k.maxEmptyRows
  rw [Nat.mul_comm] at h
  rw [emptyRuns, trace_append, hrep, after_emptyRows]
  split
  · simp only [Driver.trace, List.append_nil]
    rw [show count / k.maxEmptyRows * k.maxEmptyRows = count by omega]
  · simp only [Driver.trace, Instruction.played, List.map_replicate, List.append_nil, exec,
      List.replicate_append_replicate, h]

theorem after_flush (k : Kernel) (d : Driver) (p : Pending) : d.after (flush k p) = d := by
  unfold flush
  split
  · split
    · rfl
    · exact after_emptyRuns k d p.empty
  · exact after_emptyRuns k d p.empty

theorem trace_flush (k : Kernel) (d : Driver) (p : Pending) :
    Driver.trace channel d (flush k p) = p.trace channel d := by
  unfold flush Pending.trace
  split
  · rename_i value hnote
    split
    · rename_i hpack
      have hone : p.empty = 1 := by simp_all
      simp [hnote, hone, Driver.trace, Instruction.played, exec]
    · rw [Driver.trace, show d.exec (.note value false) = d from rfl, trace_emptyRuns, hnote]
      rfl
  · rename_i hnote
    rw [trace_emptyRuns, hnote]
    rfl

/-- The note that is held back is the end of the row. -/
theorem holdNote_eq (is : List Instruction) :
    is = (holdNote is).1 ++ (holdNote is).2.toList.map fun value => .note value false := by
  fun_induction holdNote is with
  | case1 => rfl
  | case2 => rfl
  | case3 i rest _ body note h ih =>
    rw [h] at ih
    exact congrArg (i :: ·) ih

/-- **Joining rows to a stream neither loses nor adds a row**, and each row is played with the
settings behind its own instructions. -/
theorem trace_join (k : Kernel) (d : Driver) (p : Pending) (pieces : List Piece) :
    Driver.trace channel d (join k p pieces) =
      p.trace channel d ++ tracePieces channel d pieces := by
  induction pieces generalizing d p with
  | nil => rw [join, trace_flush, tracePieces, List.append_nil]
  | cons piece rest ih =>
    cases piece with
    | mark id =>
      rw [join, trace_append, trace_flush, after_flush, Driver.trace]
      simp only [Instruction.played, exec, List.map_nil, List.nil_append, ih]
      rfl
    | row is advances =>
      rw [join]
      simp only
      split
      · -- nothing is sent, so that at most an empty row is added
        rename_i hempty
        obtain rfl : is = [] := by simpa using hempty
        rw [ih]
        simp only [Pending.trace, tracePieces, Piece.trace, Piece.after, Driver.trace]
        cases advances
        · simp [List.replicate_succ', after]
        · simp [after]
      · -- the row ends with the note that is held back, or with other instructions
        have hrow := holdNote_eq is
        generalize holdNote is = held at hrow ⊢
        obtain ⟨body, note⟩ := held
        subst hrow
        rw [trace_append, trace_append, trace_flush, after_append, after_flush, ih, tracePieces,
          Piece.trace, Piece.after, trace_append, after_append]
        cases note with
        | none => cases advances <;> simp [Pending.trace, Driver.trace, after]
        | some value =>
          cases advances <;>
            simp [Pending.trace, Driver.trace, Instruction.played, exec, after]

/-- The settings behind the stream are those behind its rows. -/
theorem after_join (k : Kernel) (d : Driver) (p : Pending) (pieces : List Piece) :
    d.after (join k p pieces) = afterPieces d pieces := by
  induction pieces generalizing d p with
  | nil => exact after_flush k d p
  | cons piece rest ih =>
    cases piece with
    | mark id =>
      rw [join, after_append, after_flush]
      exact ih d {}
    | row is advances =>
      rw [join]
      simp only
      split
      · rename_i hempty
        obtain rfl : is = [] := by simpa using hempty
        exact ih d _
      · have hrow := holdNote_eq is
        generalize holdNote is = held at hrow ⊢
        obtain ⟨body, note⟩ := held
        subst hrow
        rw [after_append, after_append, after_flush, ih, afterPieces, afterPieces,
          List.foldl_cons, Piece.after, after_append]
        cases note <;> rfl

/-- A loop mark divides the stream. -/
theorem join_mark (k : Kernel) (p : Pending) (pieces rest : List Piece) (id : Nat) :
    join k p (pieces ++ .mark id :: rest) = join k p pieces ++ .label id :: join k {} rest := by
  induction pieces generalizing p with
  | nil => rfl
  | cons piece pieces ih =>
    cases piece with
    | mark id' => simp [join, ih]
    | row is advances =>
      rw [List.cons_append, join, join]
      simp only
      split
      · exact ih _
      · rw [ih, ← List.append_assoc]

end Stream

end Chiptune
