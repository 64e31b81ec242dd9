import Chiptune.Hex

/-!
# Errors of a compile

An `Error` says why a project has no compiled form; `Error.message` is its text. A `Fault` is a
step that its own preconditions rule out: reading outside a table, an instruction that the kernel
cannot encode, and the like. Faults are values so that the absence of faults can be stated.
-/

set_option autoImplicit false

namespace Chiptune

/-- Step outside its preconditions. -/
inductive Fault
  /-- A read outside a list. -/
  | index
  /-- A remainder by zero. -/
  | remainder
  /-- A release with no loop before it. -/
  | releaseWithoutLoop
  /-- A loop target inside a run record. -/
  | loopInsideRecord
  /-- An instruction that the kernel has no encoding for. -/
  | instruction
  /-- A list that is larger than any memory. -/
  | memory
  deriving DecidableEq

/-- How a JSON text fails to be read. -/
inductive JsonProblem
  /-- The text is not JSON. -/
  | malformed
  /-- The text ends too early. -/
  | ended
  /-- A value has the wrong type or range, or a field is missing, unknown or given twice. -/
  | mismatch
  deriving DecidableEq

/-- Reason why a project cannot be compiled. -/
inductive Error
  | json (problem : JsonProblem)
  | unsupportedInstrument (name kind reason : String)
  | missingInstrument (index : Nat)
  | missingArpeggio (index : Nat)
  | missingSample (index : Nat)
  | missingPattern (song channel : String) (pattern : Nat)
  | expansionDisabled (channel expansion : String)
  | unsupportedExpansion (kernel expansion : String)
  | unresolvedSymbol (name : String)
  | addressOverflow (segment : String)
  | invalidSampleBase (base : UInt16)
  | noSongs
  | invalidSong (index : Nat)
  /-- A file cannot be read or written. -/
  | io
  | fault (fault : Fault)
  deriving DecidableEq

namespace Error

/-- Text of an error. -/
def message : Error → String
  | json _ => "Project parse error"
  | unsupportedInstrument name kind reason =>
    s!"Instrument '{name}' ({kind}) is not supported {reason}"
  | missingInstrument index => s!"Instrument {index} does not exist"
  | missingArpeggio index => s!"Arpeggio {index} does not exist"
  | missingSample index => s!"Sample {index} does not exist"
  | missingPattern song channel pattern =>
    s!"Pattern {pattern} does not exist in channel {channel} of song '{song}'"
  | expansionDisabled channel expansion =>
    s!"Channel {channel} requires the {expansion} expansion"
  | unsupportedExpansion kernel expansion =>
    s!"The {kernel} kernel does not support the {expansion} expansion"
  | unresolvedSymbol name => s!"Unresolved symbol: {name}"
  | addressOverflow segment => s!"The {segment} segment does not fit in the 64K address space"
  | invalidSampleBase base =>
    let address := Hex.word base.toNat
    s!"DPCM samples cannot be loaded at ${address}: " ++
      "the address must be 64-byte aligned and at least $C000"
  | noSongs => "No songs selected for compilation"
  | invalidSong index => s!"Song index {index} out of range"
  | io => "IO error"
  | fault _ => "Internal fault"

/-- Name of the kind of an error. -/
def kind : Error → String
  | json _ => "Json"
  | unsupportedInstrument .. => "UnsupportedInstrument"
  | missingInstrument _ => "MissingInstrument"
  | missingArpeggio _ => "MissingArpeggio"
  | missingSample _ => "MissingSample"
  | missingPattern .. => "MissingPattern"
  | expansionDisabled .. => "ExpansionDisabled"
  | unsupportedExpansion .. => "UnsupportedExpansion"
  | unresolvedSymbol _ => "UnresolvedSymbol"
  | addressOverflow _ => "AddressOverflow"
  | invalidSampleBase _ => "InvalidSampleBase"
  | noSongs => "NoSongs"
  | invalidSong _ => "InvalidSong"
  | io => "Io"
  | fault _ => "Fault"

/-- Exit code of a run that ends with an error. -/
def exitCode : Error → UInt32
  | fault _ => 101
  | _ => 1

end Error

end Chiptune
