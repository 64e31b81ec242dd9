import Chiptune.Reference
import Std.Data.HashMap

/-!
# Compression of streams

Repeated passages of a stream are replaced by references to earlier ones. Candidates are found
through an index of the windows of four tokens that were copied to the output so far; of the
passages that can be replayed the longest wins, and of equally long ones the earliest.
-/

set_option autoImplicit false

namespace Chiptune

namespace Compressor

/-- Tokens of an index entry. -/
def windowSize : Nat := 4

/-- Most notes of one reference, whose count is a byte. -/
def maxNotes : Nat := 255

/-- Token of the output, and whether it was copied from the source. -/
structure Cell where
  token : Token
  isCopy : Bool

/-- Hash of a window. -/
def windowHash (window : List Token) : UInt64 :=
  window.foldl (fun hash token => (hash ^^^ token.code.toUInt64) * 0x100000001b3) 0xcbf29ce484222325

/-- Passage of the source that repeats earlier output. -/
structure Match where
  target : Nat
  /-- Tokens of the passage. -/
  length : Nat
  /-- Instructions of the passage that take up rows. -/
  notes : Nat
  deriving DecidableEq

/-- Output so far, with the index of its windows. -/
structure Output where
  cells : Array Cell := #[]
  index : Std.HashMap UInt64 (Array Nat) := {}

/-- Progress of a comparison of the source with earlier output. -/
structure Progress where
  length : Nat := 0
  notes : Nat := 0
  /-- Whether the last instruction takes up a row. -/
  endsWithNote : Bool := false
  accepted : Option Match := none

/-- Compare the source, from its front, with the output from a target. A passage ends behind an
instruction that takes up a row, and the longest one with enough notes is accepted. -/
def extend (cells : Array Cell) (minNotes target : Nat) (p : Progress) :
    List Token → Option Match
  | [] => p.accepted
  | token :: rest =>
    match cells[target + p.length]? with
    | none => p.accepted
    | some cell =>
      if !cell.isCopy || !token.isReplayable || cell.token != token ||
          (token.isNote && p.notes == maxNotes) then p.accepted
      else
        let length := p.length + 1
        let notes := if token.isNote then p.notes + 1 else p.notes
        let endsWithNote := if token.startsInstruction then token.isNote else p.endsWithNote
        let isBoundary := rest.head?.all Token.startsInstruction
        let accepted :=
          if isBoundary && endsWithNote && minNotes ≤ notes then some ⟨target, length, notes⟩
          else p.accepted
        extend cells minNotes target { length, notes, endsWithNote, accepted } rest

/-- Whether a window may be looked up: it begins an instruction and can be replayed. -/
def isIndexable (window : List Token) : Bool :=
  window.length == windowSize && window.head?.any Token.startsInstruction &&
    window.all Token.isReplayable

/-- The longer of two matches; of equally long ones the first. -/
def longer (best found : Option Match) : Option Match :=
  match best, found with
  | some b, some f => if b.length < f.length then some f else some b
  | none, found => found
  | best, none => best

/-- The best match of the source from its front. -/
def find (out : Output) (minNotes : Nat) (source : List Token) : Option Match :=
  let window := source.take windowSize
  if isIndexable window then
    (out.index.getD (windowHash window) #[]).foldl
      (fun best target => longer best (extend out.cells minNotes target {} source)) none
  else none

/-- Copy a token to the output, and index the window that it completes. -/
def copy (out : Output) (token : Token) : Output :=
  let cells := out.cells.push ⟨token, true⟩
  let start := cells.size - windowSize
  let window := (cells.extract start cells.size).toList
  if isIndexable (window.map Cell.token) && window.all Cell.isCopy then
    let key := windowHash (window.map Cell.token)
    ⟨cells, out.index.alter key fun bucket => some ((bucket.getD #[]).push start)⟩
  else ⟨cells, out.index⟩

/-- Add a reference to the output. -/
def refer (out : Output) (opcode : UInt8) (m : Match) : Output :=
  let cells := (Reference.tokens opcode m.notes m.target).map fun token => Cell.mk token false
  ⟨out.cells ++ cells, out.index⟩

/-- Output of a source of which the first `skip` tokens are covered by a reference. -/
def run (opcode : UInt8) (minNotes : Nat) (out : Output) (skip : Nat) : List Token → Output
  | [] => out
  | token :: rest =>
    match skip with
    | skip + 1 => run opcode minNotes out skip rest
    | 0 =>
      match find out minNotes (token :: rest) with
      | some m => run opcode minNotes (refer out opcode m) (m.length - 1) rest
      | none => run opcode minNotes (copy out token) 0 rest

end Compressor

/-- The stream with repeats of at least `minNotes` notes replaced by references. -/
def compress (k : Kernel) (minNotes : Nat) (stream : List Token) : List Token :=
  match k.opcode .reference with
  | some opcode => (Compressor.run opcode (max 1 minNotes) {} 0 stream).cells.toList.map (·.token)
  | none => stream

/-- The smallest result among some thresholds and the threshold that gave it, which is the last of
those that give the same size; 0 without thresholds. -/
def compressBest (k : Kernel) (thresholds : List Nat) (stream : List Token) : List Token × Nat :=
  let best := thresholds.foldl (fun (best : Option (List Token × Nat × Nat)) threshold =>
    let compressed := compress k threshold stream
    let size := byteSize compressed
    match best with
    | some (_, bestSize, _) => if size ≤ bestSize then some (compressed, size, threshold) else best
    | none => some (compressed, size, threshold)) none
  match best with
  | some (compressed, _, threshold) => (compressed, threshold)
  | none => (stream, 0)

/-- How streams are compressed. -/
inductive Compression
  | off
  /-- One threshold, in notes. -/
  | fixed (threshold : Nat)
  /-- The best threshold from `low` to `high`. -/
  | sweep (low high : Nat)
  deriving DecidableEq

namespace Compression

/-- Thresholds from 8 to 40 notes are tried. -/
def default : Compression := .sweep 8 40

/-- Compressed stream and the threshold used, 0 when off. -/
def apply (c : Compression) (k : Kernel) (stream : List Token) : List Token × Nat :=
  match c with
  | .off => (stream, 0)
  | .fixed threshold => (compress k threshold stream, threshold)
  | .sweep low high => compressBest k (List.range' low (high + 1 - low)) stream

end Compression

end Chiptune
