/-!
# Labels of the compiled data

Every table, record and stream has a label. Its text is the stem that the caller chose, followed by
a name that tells what the label stands for.
-/

set_option autoImplicit false

namespace Chiptune

/-- What a label marks. -/
inductive Label
  | header
  | instruments
  | extendedInstruments
  | sampleTable
  | envelope (index : Nat)
  | groove (index : Nat)
  | fdsWave (index : Nat)
  | fdsMod (index : Nat)
  | n163Wave (index : Nat)
  | sample (index : Nat)
  | song (index : Nat)
  | stream (song : Nat) (channel : String)
  | streamLoop (song : Nat) (channel : String)
  /-- Target of a back-reference at a token of a stream. -/
  | streamRef (song : Nat) (channel : String) (offset : Nat)
  deriving DecidableEq

namespace Label

/-- Name of a label without the stem. -/
def name : Label → String
  | header => "music_data"
  | instruments => "instruments"
  | extendedInstruments => "extended_instruments"
  | sampleTable => "samples"
  | envelope index => s!"env{index}"
  | groove index => s!"groove{index}"
  | fdsWave index => s!"fds_wave{index}"
  | fdsMod index => s!"fds_mod{index}"
  | n163Wave index => s!"n163_wave{index}"
  | sample index => s!"dpcm{index}"
  | song index => s!"song{index}"
  | stream number channel => s!"song{number}_{channel}"
  | streamLoop number channel => s!"song{number}_{channel}_loop"
  | streamRef number channel offset => s!"song{number}_{channel}_ref{offset}"

/-- Text of a label. -/
def text (stem : String) (label : Label) : String := stem ++ label.name

end Label

/-- Names that streams refer to, numbered in order of first use. A number fits 32 bits as long as
there are no more than 2^32 names. -/
structure Symbols where
  names : Array String := #[]

namespace Symbols

/-- Number of a name, which is added on first use. -/
def intern (s : Symbols) (name : String) : Nat × Symbols :=
  match s.names.findIdx? (· == name) with
  | some id => (id, s)
  | none => (s.names.size, ⟨s.names.push name⟩)

/-- Name of a number. -/
def name? (s : Symbols) (id : Nat) : Option String := s.names[id]?

end Symbols

end Chiptune
