import Chiptune.Curve
import Chiptune.Curve.Vibrato
import Chiptune.Label
import Chiptune.Song
import Chiptune.UniqueTable

/-!
# Tables that all channels of a compile share

Symbols, encoded curves, grooves and warnings belong to a whole compile. Entry 0 of the curves is
the default curve.
-/

set_option autoImplicit false

namespace Chiptune

/-- Tables shared by all channels of a compile. -/
structure Tables where
  symbols : Symbols := {}
  curves : UniqueTable := UniqueTable.withDefault Curve.default
  grooves : UniqueTable := {}
  log : Log := {}
  /-- Curve of each vibrato that was used. -/
  vibratos : List ((UInt8 × UInt8) × Nat) := []

namespace Tables

/-- Index of the default curve. -/
def defaultCurve : Nat := 0

/-- Apply a change to the log. -/
def logging (t : Tables) (change : Log → Log) : Tables := { t with log := change t.log }

/-- Number of a symbol. -/
def symbol (t : Tables) (name : String) : Nat × Tables :=
  let (id, symbols) := t.symbols.intern name
  (id, { t with symbols })

/-- Index of an encoded curve. -/
def addCurve (t : Tables) (bytes : List UInt8) (relative : Bool) : Nat × Tables :=
  let (index, curves) := t.curves.intern bytes (if relative then 1 else 0)
  (index, { t with curves })

/-- Index of the curve of an envelope. -/
def addEnvelope (t : Tables) (e : Option Envelope) (kind : EnvelopeKind) (kernel : Kernel) :
    Except Fault (Nat × Tables) :=
  match e with
  | none => .ok (defaultCurve, t)
  | some e => do
    let (curve, log) ← Curve.encodeInstrument e kind kernel t.log
    let t := { t with log }
    match curve with
    | some bytes => .ok (t.addCurve bytes e.relative)
    | none => .ok (defaultCurve, t)

/-- Vibratos share a curve if their settings are equal up to the largest ones. -/
def vibratoKey (v : Vibrato) : UInt8 × UInt8 := (min 15 v.speed, min 15 v.depth)

/-- Index of the curve of a vibrato. -/
def vibrato (t : Tables) (v : Vibrato) : Except Fault (Nat × Tables) :=
  let key := vibratoKey v
  match t.vibratos.lookup key with
  | some index => .ok (index, t)
  | none => do
    let (curve, log) ← Curve.encode (Curve.vibrato key.1 key.2) ⟨false, true⟩ t.log
    let t := { t with log }
    let (index, t) :=
      match curve with
      | some bytes => t.addCurve bytes false
      | none => (defaultCurve, t)
    .ok (index, { t with vibratos := (key, index) :: t.vibratos })

/-- Bytes of a groove: its frame counts, which are at least 1, and a terminator. -/
def grooveBytes (groove : List UInt8) : List UInt8 :=
  (if groove.isEmpty then [6] else groove.map (max 1)) ++ [0]

/-- Index of a groove. -/
def groove (t : Tables) (groove : List UInt8) : Nat × Tables :=
  let (index, grooves) := t.grooves.intern (grooveBytes groove) 0
  (index, { t with grooves })

end Tables

end Chiptune
