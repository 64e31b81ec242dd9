import Chiptune.Hex

/-!
# Assembler listings

Compiled data is laid out once as a list of typed lines, which calls add (`Listing.build`).
`Listing.render` writes the lines as assembler source in one of two dialects; they are also
assembled to binary.
-/

set_option autoImplicit false

namespace Chiptune

/-- Assembler that a source is written for. -/
inductive Dialect
  | ca65
  | asm6
  deriving DecidableEq

namespace Dialect

def all : List Dialect := [ca65, asm6]

/-- Name in options. -/
def key : Dialect → String
  | ca65 => "ca65"
  | asm6 => "asm6"

def byteDirective : Dialect → String
  | ca65 => ".byte"
  | asm6 => ".db"

def wordDirective : Dialect → String
  | ca65 => ".word"
  | asm6 => ".dw"

def alignDirective : Dialect → String
  | ca65 => ".align"
  | asm6 => "align"

end Dialect

/-- Part of the compiled data that loads at an address of its own. -/
inductive Segment
  | music
  | samples
  deriving DecidableEq

namespace Segment

/-- Name in sources and messages. -/
def name : Segment → String
  | music => "MUSIC"
  | samples => "DPCM"

/-- Name in data files. -/
def key : Segment → String
  | music => "music"
  | samples => "samples"

end Segment

/-- Operand of a word directive. -/
inductive Word
  | label (name : String)
  | value (value : UInt16)
  deriving DecidableEq

/-- Line of a listing. -/
inductive Line
  /-- The following lines belong to a segment that starts at an address. -/
  | segment (segment : Segment) (base : UInt16)
  | label (name : String)
  | bytes (bytes : List UInt8)
  | words (words : List Word)
  /-- Pad with zeros to a multiple. -/
  | align (alignment : Nat)
  | comment (text : String)
  | blank
  deriving DecidableEq

namespace Listing

/-- Most values of a line of bytes. -/
def bytesPerLine : Nat := 16

/-- Most values of a line of words. -/
def wordsPerLine : Nat := 8

/-- A list in chunks of `n + 1` elements, of which the last may be shorter. -/
def chunks {α : Type} (n : Nat) (xs : List α) : List (List α) :=
  match xs with
  | [] => []
  | x :: rest => (x :: rest.take n) :: chunks n (rest.drop n)
termination_by xs.length
decreasing_by
  simp only [List.length_drop, List.length_cons]
  omega

/-- Lines of a string of bytes. -/
def bytes (data : List UInt8) : List Line := (chunks (bytesPerLine - 1) data).map .bytes

/-- Lines of a list of words. -/
def words (data : List Word) : List Line := (chunks (wordsPerLine - 1) data).map .words

/-- Call that adds to a listing. -/
inductive Call
  | segment (segment : Segment) (base : UInt16)
  | label (name : String)
  /-- Bytes in as many lines as they need. -/
  | bytes (data : List UInt8)
  | byte (value : UInt8)
  /-- Words in as many lines as they need. -/
  | words (data : List Word)
  | word (value : UInt16)
  | wordLabel (name : String)
  | align (alignment : Nat)
  | comment (text : String)
  | blank
  deriving DecidableEq

/-- Lines that a call adds. -/
def Call.lines : Call → List Line
  | .segment s base => [.segment s base]
  | .label name => [.label name]
  | .bytes data => Listing.bytes data
  | .byte value => [.bytes [value]]
  | .words data => Listing.words data
  | .word value => [.words [.value value]]
  | .wordLabel name => [.words [.label name]]
  | .align alignment => [.align alignment]
  | .comment text => [.comment text]
  | .blank => [.blank]

/-- Lines of a sequence of calls. -/
def build (calls : List Call) : List Line := calls.flatMap Call.lines

/-- Text of a byte value. -/
def byteText (b : UInt8) : String := "$" ++ Hex.byte b.toNat

/-- Text of a word operand. -/
def wordText : Word → String
  | .label name => name
  | .value v => "$" ++ Hex.word v.toNat

/-- Text of a line without its end. -/
def lineText (dialect : Dialect) : Line → String
  | .segment segment base =>
    match dialect with
    | .ca65 => ".segment \"" ++ segment.name ++ "\""
    | .asm6 => ".base $" ++ Hex.word base.toNat
  | .label name => name ++ ":"
  | .bytes data => "\t" ++ dialect.byteDirective ++ " " ++ ",".intercalate (data.map byteText)
  | .words data => "\t" ++ dialect.wordDirective ++ " " ++ ",".intercalate (data.map wordText)
  | .align alignment => "\t" ++ dialect.alignDirective ++ " " ++ toString alignment
  | .comment text => "; " ++ text
  | .blank => ""

/-- Source text of a listing. -/
def render (dialect : Dialect) (lines : List Line) : String :=
  lines.foldl (fun text line => text ++ (lineText dialect line ++ "\n")) ""

end Listing

end Chiptune
