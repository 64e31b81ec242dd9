import Chiptune.Instruction

/-!
# Rows joined to a stream

The rows of a channel give pieces of a stream: the instructions of a row, and a mark where the loop
begins. A row that nothing takes up is an empty row; empty rows are collected and written as one
instruction. A kernel that packs notes writes a note with one empty row behind it as a single byte,
so a one-byte note is held back until it is known what follows.

* `emptyRuns_rows`: runs of empty rows hold as many rows as were collected.
-/

set_option autoImplicit false

namespace Chiptune.Stream

/-- Part of a stream that one row gives. -/
inductive Piece
  /-- Loop mark before a row. -/
  | mark (id : Nat)
  /-- Instructions of a row, and whether one of them takes up the row. -/
  | row (instructions : List Instruction) (advances : Bool)
  deriving DecidableEq

/-- What is not written yet: a note that may be packed, and the empty rows behind it. -/
structure Pending where
  note : Option UInt8 := none
  empty : Nat := 0
  deriving DecidableEq

/-- Instructions for a number of empty rows, the longest runs first. -/
def emptyRuns (k : Kernel) (count : Nat) : List Instruction :=
  List.replicate (count / k.maxEmptyRows) (.emptyRows k.maxEmptyRows) ++
    if count % k.maxEmptyRows = 0 then [] else [.emptyRows (count % k.maxEmptyRows)]

/-- Instructions of what is not written yet. -/
def flush (k : Kernel) (p : Pending) : List Instruction :=
  match p.note with
  | some value =>
    if k.packsEmptyRows && p.empty == 1 then [.note value true]
    else .note value false :: emptyRuns k p.empty
  | none => emptyRuns k p.empty

/-- Instructions of a row without the note that is held back, and this note. -/
def holdNote : List Instruction → List Instruction × Option UInt8
  | [] => ([], none)
  | [.note value false] => ([], some value)
  | i :: rest =>
    let (body, note) := holdNote rest
    (i :: body, note)

/-- Stream of a sequence of pieces. -/
def join (k : Kernel) (p : Pending) : List Piece → List Instruction
  | [] => flush k p
  | .mark id :: rest => flush k p ++ .label id :: join k {} rest
  | .row instructions advances :: rest =>
    let added := if advances then 0 else 1
    if instructions.isEmpty then join k { p with empty := p.empty + added } rest
    else
      let (body, note) := holdNote instructions
      flush k p ++ body ++ join k { note, empty := added } rest

/-- Number of empty rows that an instruction stands for. -/
def emptyRowsIn : Instruction → Nat
  | .emptyRows count => count
  | _ => 0

/-- Number of empty rows that a sequence of instructions stands for. -/
def emptyRowCount : List Instruction → Nat
  | [] => 0
  | i :: rest => emptyRowsIn i + emptyRowCount rest

theorem emptyRowCount_replicate_append (n size : Nat) (rest : List Instruction) :
    emptyRowCount (List.replicate n (.emptyRows size) ++ rest) = n * size + emptyRowCount rest := by
  induction n with
  | zero => simp
  | succ n ih =>
    simp only [List.replicate_succ, List.cons_append, emptyRowCount, emptyRowsIn, ih]
    rw [Nat.succ_mul]
    omega

theorem emptyRuns_rows (k : Kernel) (count : Nat) : emptyRowCount (emptyRuns k count) = count := by
  have h := Nat.div_add_mod count k.maxEmptyRows
  rw [Nat.mul_comm] at h
  rw [emptyRuns, emptyRowCount_replicate_append]
  split
  · simp only [emptyRowCount]
    omega
  · simp only [emptyRowCount, emptyRowsIn]
    omega

end Chiptune.Stream
