import Chiptune.Error
import Chiptune.Listing
import Std.Data.HashMap

/-!
# Binary images of listings

Lines are assembled in two steps. Laying them out gives the bytes of both segments, in which every
word that names a label is still empty, and the address of each label; then the empty words are
filled in. A label that is defined twice keeps its last address.
-/

set_option autoImplicit false

namespace Chiptune

/-- Word of a segment that holds the address of a label. -/
structure Hole where
  segment : Segment
  offset : Nat
  label : String
  deriving DecidableEq

/-- Bytes of a segment and the address of the first of them. -/
structure Block where
  base : UInt16
  bytes : Array UInt8 := #[]
  deriving DecidableEq

namespace Block

/-- Address behind the last byte, a number of 32 bits. -/
def address (b : Block) : UInt32 := b.base.toUInt32 + UInt32.ofNat b.bytes.size

/-- Add bytes at the end. -/
def append (b : Block) (bytes : List UInt8) : Block := { b with bytes := b.bytes ++ bytes }

end Block

/-- State of a layout. -/
structure Image.Draft where
  music : Block
  /-- The sample segment, once a line has opened it. -/
  samples : Option Block := none
  current : Segment := .music
  /-- Labels in reverse order of definition. -/
  labels : List (String × UInt16) := []
  /-- Empty words in reverse order. -/
  holes : List Hole := []

/-- Assembled listing. -/
structure Image where
  music : List UInt8
  samples : List UInt8
  /-- Labels with their addresses, in reverse order of definition; of two of one name the first
  counts. -/
  labels : List (String × UInt16)

namespace Image

/-- Largest address of a label. -/
def maxAddress : Nat := 0xFFFF

/-- The bytes of a word, low byte first. -/
def wordBytes (w : UInt16) : List UInt8 := [w.toUInt8, (w >>> 8).toUInt8]

namespace Draft

/-- The block of the current segment. -/
def block (d : Draft) : Block :=
  match d.current with
  | .music => d.music
  | .samples => d.samples.getD { base := 0 }

/-- Replace the block of the current segment. -/
def setBlock (d : Draft) (b : Block) : Draft :=
  match d.current with
  | .music => { d with music := b }
  | .samples => { d with samples := some b }

/-- Go on in a segment; its base is that of the line that opens it. -/
def enter (d : Draft) (segment : Segment) (base : UInt16) : Draft :=
  match segment, d.samples with
  | .samples, none => { d with current := .samples, samples := some { base } }
  | _, _ => { d with current := segment }

/-- Add a word. -/
def addWord (d : Draft) : Word → Draft
  | .value v => d.setBlock (d.block.append (wordBytes v))
  | .label name =>
    let hole : Hole := ⟨d.current, d.block.bytes.size, name⟩
    { d.setBlock (d.block.append [0, 0]) with holes := hole :: d.holes }

/-- Refuse a block that goes past the address space. -/
def check (d : Draft) : Except Error Draft :=
  if maxAddress + 1 < d.block.address.toNat then .error (.addressOverflow d.current.name)
  else .ok d

/-- Lay out a line. -/
def addLine (d : Draft) : Line → Except Error Draft
  | .segment segment base => .ok (d.enter segment base)
  | .comment _ | .blank => .ok d
  | .label name =>
    if maxAddress < d.block.address.toNat then .error (.addressOverflow d.current.name)
    else check { d with labels := (name, d.block.address.toUInt16) :: d.labels }
  | .bytes data => check (d.setBlock (d.block.append data))
  | .words data => check (data.foldl addWord d)
  | .align alignment =>
    let step := max 1 alignment % 0x100000000
    if step = 0 then .error (.fault .remainder)
    else
      let gap := (step - d.block.address.toNat % step) % step
      if maxAddress + 1 < d.block.address.toNat + gap then .error (.addressOverflow d.current.name)
      else .ok (d.setBlock (d.block.append (List.replicate gap 0)))

end Draft

/-- Bytes with a word put at an offset. -/
def putWord (bytes : Array UInt8) (offset : Nat) (w : UInt16) : Array UInt8 :=
  (bytes.setIfInBounds offset w.toUInt8).setIfInBounds (offset + 1) (w >>> 8).toUInt8

/-- Fill in one empty word. -/
def fillHole (addresses : Std.HashMap String UInt16) (d : Draft) (hole : Hole) :
    Except Error Draft :=
  match addresses[hole.label]? with
  | none => .error (.unresolvedSymbol hole.label)
  | some address =>
    match hole.segment with
    | .music => .ok { d with music.bytes := putWord d.music.bytes hole.offset address }
    | .samples =>
      .ok { d with
        samples := d.samples.map fun b => { b with bytes := putWord b.bytes hole.offset address } }

/-- Image of a listing; lines before the first segment line belong to the music. -/
def assemble (lines : List Line) (musicBase : UInt16) : Except Error Image := do
  let d ← lines.foldlM Draft.addLine { music := { base := musicBase } }
  let addresses := Std.HashMap.ofList d.labels.reverse
  let d ← d.holes.reverse.foldlM (fillHole addresses) d
  .ok { music := d.music.bytes.toList
        samples := ((d.samples.map (·.bytes)).getD #[]).toList
        labels := d.labels }

end Image

end Chiptune
