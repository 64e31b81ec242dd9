import Chiptune.Proofs.ReadyRows

/-!
# Streams that are not finished

A row that is refused stops its stream in the middle, after some of its instructions. What the rows
have sent up to there can be written all the same: all voices that a run goes through are ready
(`Visits.ready`), the last one included that an error keeps (`Voice.ready_stopped`).
-/

set_option autoImplicit false

namespace Chiptune.Stream

variable {job : Job} {rows : List Row} {speeds : List (Option UInt8)} {loopAt : Option Nat}

namespace Voice

variable {v u : Voice} {e : Error}

/-- A step that fails keeps the voice before it. -/
theorem attempt_stopped {α ε : Type} {fail : ε → Error} {step : Except ε α}
    (h : v.attempt fail step = .error (e, u)) : u = v := by
  cases step with
  | error =>
    cases h
    rfl
  | ok a => cases h

theorem Ready.playValue_stopped {index : Nat} {row : Row} {rest : List Row} {note : Note}
    (hslots : job.slots.Bounded) (h : v.Ready job)
    (hv : v.playValue job index row rest note = .error (e, u)) : u.Ready job := by
  unfold Voice.playValue at hv
  split at hv
  · split at hv
    · -- a sample: the settings come first
      rcases bind_error hv with hv | ⟨w, hw, hv⟩
      · rw [attempt_stopped hv]
        exact h
      · rw [attempt_stopped hv]
        exact (h.syncContinuous (attempt_ok hw)).delays note
    · rcases bind_error hv with hv | ⟨w, hw, hv⟩
      · rw [attempt_stopped hv]
        exact h
      have hw := h.syncInstrument hslots (attempt_ok hw)
      rcases bind_error hv with hv | ⟨x, hx, hv⟩
      · rw [attempt_stopped hv]
        exact hw
      have hx := hw.syncArpeggio (attempt_ok hx)
      rcases bind_error hv with hv | ⟨y, -, hv⟩
      · rw [attempt_stopped hv]
        exact hx
      · cases hv
  · rcases bind_error hv with hv | ⟨w, -, hv⟩
    · rw [attempt_stopped hv]
      exact h
    · cases hv
  · rcases bind_error hv with hv | ⟨w, -, hv⟩
    · rw [attempt_stopped hv]
      exact h
    · split at hv <;> cases hv
  · rcases bind_error hv with hv | ⟨w, -, hv⟩
    · rw [attempt_stopped hv]
      exact h
    · cases hv

/-- **A row that stops a stream has sent what can be written.** -/
theorem ready_stopped {index : Nat} {row : Row} {speed : Option UInt8} {rest : List Row}
    (hslots : job.slots.Bounded) (h : v.Ready job)
    (hv : v.processRow job index row speed rest = .error (e, u)) : u.Ready job := by
  have htempo := h.tempoOf row speed
  unfold processRow at hv
  simp only at hv
  split at hv
  · cases hv
  · rename_i note _
    rcases bind_error hv with hv | ⟨x, -, hv⟩
    · exact (htempo.want note).playValue_stopped hslots hv
    · cases hv

end Voice

/-- **The voices that the rows of a channel go through**, from a given row on: one behind each row
that is over, and one in the row that stops the stream, if there is such a row. -/
inductive Visits (job : Job) (rows : List Row) (speeds : List (Option UInt8))
    (loopAt : Option Nat) : Nat → List Row → List (Option UInt8) → Voice → Voice → Prop
  | row {index : Nat} {row : Row} {rest : List Row} {later : List (Option UInt8)} {v u : Voice}
      {advances : Bool} :
      (marked job rows speeds loopAt index v).2.processRow job index row later.head?.join rest =
        .ok (u, advances) →
      Visits job rows speeds loopAt index (row :: rest) later v u
  | stopped {index : Nat} {row : Row} {rest : List Row} {later : List (Option UInt8)}
      {v u : Voice} {e : Error} :
      (marked job rows speeds loopAt index v).2.processRow job index row later.head?.join rest =
        .error (e, u) →
      Visits job rows speeds loopAt index (row :: rest) later v u
  | next {index : Nat} {row : Row} {rest : List Row} {later : List (Option UInt8)}
      {v u w : Voice} {advances : Bool} :
      (marked job rows speeds loopAt index v).2.processRow job index row later.head?.join rest =
        .ok (u, advances) →
      Visits job rows speeds loopAt (index + 1) rest later.tail { u with row := [] } w →
      Visits job rows speeds loopAt index (row :: rest) later v w

/-- The voice that an error keeps is one of them. -/
theorem visits_of_runRows {index : Nat} {rest : List Row} {later : List (Option UInt8)}
    {done : List Piece} {v u : Voice} {e : Error}
    (h : runRows job rows speeds loopAt index rest later done v = .error (e, u)) :
    Visits job rows speeds loopAt index rest later v u := by
  induction rest generalizing index later done v with
  | nil => cases h
  | cons row rest ih =>
    rw [runRows, runRow_eq] at h
    cases hstep : (marked job rows speeds loopAt index v).2.processRow job index row
        later.head?.join rest with
    | error stopped =>
      simp only [hstep, bind, Except.bind] at h
      cases h
      exact .stopped hstep
    | ok x =>
      simp only [hstep, bind, Except.bind] at h
      exact .next hstep (ih h)

/-- **What a stream has sent can be written**, whether the stream is finished or not. -/
theorem Visits.ready {index : Nat} {rest : List Row} {later : List (Option UInt8)} {v u : Voice}
    (hslots : job.slots.Bounded) (h : Visits job rows speeds loopAt index rest later v u)
    (hv : v.Ready job) : u.Ready job := by
  induction h with
  | row hstep => exact Voice.ready_processRow hslots (ready_marked hv) hstep
  | stopped hstep => exact Voice.ready_stopped hslots (ready_marked hv) hstep
  | next hstep _ ih =>
    have hu := Voice.ready_processRow hslots (ready_marked hv) hstep
    exact ih { hu with row := by simp }

end Chiptune.Stream
