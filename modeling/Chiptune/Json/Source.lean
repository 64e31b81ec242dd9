import Chiptune.Error
import Chiptune.Json.Numeral

/-!
# JSON texts as a reader meets them

A text is read from front to back, and the first problem that the reader meets is the one it
reports. Whether something is a problem depends on the reader: one that wants a number objects to
a string, while one that skips a value objects to nothing but bad syntax. So a text is first
turned into a `Source`, which holds every value up to the first place where no reader can go on,
and in that place the problem (`Source.broken`, `Stop`). Readers then walk the source in the order
of the text.
-/

set_option autoImplicit false

namespace Chiptune.Json

/-- Problem at a place where no reader can go on. -/
structure Break where
  /-- For a reader of values. -/
  reading : JsonProblem
  /-- For a reader that skips values. -/
  skipping : JsonProblem
  /-- For a reader that wants a name. -/
  naming : JsonProblem
  /-- Whether the place is inside the word `null`, as far as the text goes. -/
  inNull : Bool := false
  deriving DecidableEq

/-- A problem that is the same for every reader. -/
def Break.always (p : JsonProblem) : Break := { reading := p, skipping := p, naming := p }

/-- How a list of items or members ends. -/
inductive Stop
  | closed
  /-- A problem where a comma or the closing bracket should be. -/
  | broken (problem : JsonProblem)
  /-- A problem after a comma. -/
  | comma (problem : JsonProblem)
  deriving DecidableEq

/-- JSON text up to the first place where no reader can go on. A string holds its text or the reason
why it has none. -/
inductive Source
  | broken (cause : Break)
  | null
  | bool (value : Bool)
  | number (value : Numeral)
  | string (text : Except JsonProblem String)
  | array (items : List Source) (stop : Stop)
  | object (members : List (Except JsonProblem String × Source)) (stop : Stop)
  /-- An object whose first member does not begin with a string. -/
  | keyless

/-! ## Numbers -/

def isBlank (b : UInt8) : Bool := b = 0x20 || b = 0x0A || b = 0x0D || b = 0x09

def isDigit (b : UInt8) : Bool := 0x30 ≤ b && b ≤ 0x39

def skipBlanks (bytes : List UInt8) : List UInt8 := bytes.dropWhile isBlank

/-- Problem of a number that lacks a digit before the given bytes. -/
def missingDigit : List UInt8 → Break
  | [] => { reading := .ended, skipping := .malformed, naming := .malformed }
  | _ => .always .malformed

/-- Digits at the front, at least one. -/
def someDigits (bytes : List UInt8) : Except Break (List UInt8 × List UInt8) :=
  match bytes.takeWhile isDigit with
  | [] => .error (missingDigit bytes)
  | digits => .ok (digits, bytes.dropWhile isDigit)

/-- Exponent of a number, 0 if there is none. -/
def exponentPart (bytes : List UInt8) : Except Break (Option Int × List UInt8) :=
  match bytes with
  | letter :: rest =>
    if letter = 0x65 ∨ letter = 0x45 then
      match rest with
      | 0x2B :: rest => do
        let (digits, rest) ← someDigits rest
        .ok (some (Numeral.exponentOf digits), rest)
      | 0x2D :: rest => do
        let (digits, rest) ← someDigits rest
        .ok (some (-Numeral.exponentOf digits), rest)
      | rest => do
        let (digits, rest) ← someDigits rest
        .ok (some (Numeral.exponentOf digits), rest)
    else .ok (none, bytes)
  | [] => .ok (none, bytes)

/-- Fraction digits of a number. -/
def fractionPart : List UInt8 → Except Break (Option (List UInt8) × List UInt8)
  | 0x2E :: rest => do
    let (digits, rest) ← someDigits rest
    .ok (some digits, rest)
  | bytes => .ok (none, bytes)

/-- Number at the front, after its sign. A zero is not followed by further digits. -/
def numeral (negative : Bool) (bytes : List UInt8) : Except Break (Numeral × List UInt8) := do
  let (whole, rest) ← someDigits bytes
  if whole.head? = some 0x30 ∧ whole.length ≠ 1 then .error (.always .malformed)
  let (fraction, rest) ← fractionPart rest
  let (exponent, rest) ← exponentPart rest
  .ok (Numeral.ofParts negative whole fraction exponent, rest)

/-! ## Strings -/

/-- Value of a hexadecimal digit. -/
def hexValue (b : UInt8) : Option Nat :=
  if 0x30 ≤ b ∧ b ≤ 0x39 then some (b.toNat - 0x30)
  else if 0x61 ≤ b ∧ b ≤ 0x66 then some (b.toNat - 0x61 + 10)
  else if 0x41 ≤ b ∧ b ≤ 0x46 then some (b.toNat - 0x41 + 10)
  else none

/-- Code unit of four hexadecimal digits. -/
def hexUnit (a b c d : UInt8) : Option Nat := do
  let a ← hexValue a
  let b ← hexValue b
  let c ← hexValue c
  let d ← hexValue d
  return ((a * 16 + b) * 16 + c) * 16 + d

/-- Byte that a one-letter escape stands for. -/
def simpleEscape : UInt8 → Option UInt8
  | 0x22 => some 0x22
  | 0x5C => some 0x5C
  | 0x2F => some 0x2F
  | 0x62 => some 0x08
  | 0x66 => some 0x0C
  | 0x6E => some 0x0A
  | 0x72 => some 0x0D
  | 0x74 => some 0x09
  | _ => none

/-- What follows a string, given the bytes after its opening quote. -/
def skipString : List UInt8 → Except JsonProblem (List UInt8)
  | [] => .error .ended
  | 0x22 :: rest => .ok rest
  | 0x5C :: 0x75 :: a :: b :: c :: d :: rest =>
    if (hexUnit a b c d).isSome then skipString rest else .error .malformed
  | 0x5C :: e :: rest =>
    if e = 0x75 then .error .ended
    else if (simpleEscape e).isSome then skipString rest
    else .error .malformed
  | [0x5C] => .error .ended
  | b :: rest => if b < 0x20 then .error .malformed else skipString rest

/-- Whether a code unit is the first of a surrogate pair. -/
def isLeading (unit : Nat) : Bool := 0xD800 ≤ unit && unit ≤ 0xDBFF

/-- Whether a code unit is the second of a surrogate pair. -/
def isTrailing (unit : Nat) : Bool := 0xDC00 ≤ unit && unit ≤ 0xDFFF

/-- Bytes of a string in UTF-8, given the bytes after its opening quote. Surrogates come in pairs.
-/
def stringBytes : List UInt8 → Except JsonProblem (List UInt8)
  | [] => .error .ended
  | 0x22 :: _ => .ok []
  | 0x5C :: 0x75 :: a :: b :: c :: d :: rest =>
    match hexUnit a b c d with
    | none => .error .malformed
    | some unit =>
      if isTrailing unit then .error .malformed
      else if isLeading unit then
        match rest with
        | 0x5C :: 0x75 :: a :: b :: c :: d :: rest =>
          match hexUnit a b c d with
          | none => .error .malformed
          | some second =>
            if isTrailing second then do
              let code := 0x10000 + (unit - 0xD800) * 0x400 + (second - 0xDC00)
              let others ← stringBytes rest
              .ok (String.utf8EncodeChar (Char.ofNat code) ++ others)
            else .error .malformed
        | [] | [0x5C] => .error .ended
        | 0x5C :: u :: _ => .error (if u = 0x75 then .ended else .malformed)
        | _ => .error .malformed
      else do
        let others ← stringBytes rest
        .ok (String.utf8EncodeChar (Char.ofNat unit) ++ others)
  | 0x5C :: e :: rest =>
    if e = 0x75 then .error .ended
    else match simpleEscape e with
      | some byte => do
        let others ← stringBytes rest
        .ok (byte :: others)
      | none => .error .malformed
  | [0x5C] => .error .ended
  | b :: rest =>
    if b < 0x20 then .error .malformed
    else do
      let others ← stringBytes rest
      .ok (b :: others)

/-- Text of UTF-8 bytes. -/
def utf8Text (bytes : List UInt8) : Option String := String.fromUTF8? ⟨bytes.toArray⟩

/-- Text of a string, given the bytes after its opening quote. -/
def stringText (bytes : List UInt8) : Except JsonProblem String := do
  let content ← stringBytes bytes
  match utf8Text content with
  | some text => .ok text
  | none => .error .malformed

/-- String at the front, after its opening quote, and what follows it. -/
def stringPart (bytes : List UInt8) :
    Except Break (Except JsonProblem String × List UInt8) :=
  match skipString bytes, stringText bytes with
  | .ok rest, text => .ok (text, rest)
  | .error skipping, .error reading => .error { reading, skipping, naming := reading }
  | .error skipping, .ok _ => .error (.always skipping)

/-! ## Values -/

/-- What follows a word, given the bytes that its first letter is followed by. -/
def word (letters : List UInt8) (bytes : List UInt8) : Except Break (List UInt8) :=
  match letters, bytes with
  | [], rest => .ok rest
  | _, [] => .error { reading := .ended, skipping := .ended, naming := .malformed }
  | l :: letters, b :: rest => if l = b then word letters rest else .error (.always .malformed)

/-- Source of a leaf and what follows it. -/
def leaf {α : Type} (part : Except Break (α × List UInt8)) (make : α → Source) :
    Source × Option (List UInt8) :=
  match part with
  | .ok (a, rest) => (make a, some rest)
  | .error cause => (.broken cause, none)

mutual

/-- Value at the front, and what follows it unless no reader can go on. The first argument bounds
the number of steps; twice the number of bytes are enough. -/
def value : Nat → List UInt8 → Source × Option (List UInt8)
  | 0, _ => (.broken (.always .ended), none)
  | steps + 1, bytes =>
    match skipBlanks bytes with
    | [] => (.broken (.always .ended), none)
    | 0x6E :: rest =>
      let part := (word [0x75, 0x6C, 0x6C] rest).mapError ({ · with inNull := true })
      leaf (part.map ((), ·)) fun _ => .null
    | 0x74 :: rest => leaf ((word [0x72, 0x75, 0x65] rest).map ((), ·)) fun _ => .bool true
    | 0x66 :: rest => leaf ((word [0x61, 0x6C, 0x73, 0x65] rest).map ((), ·)) fun _ => .bool false
    | 0x22 :: rest => leaf (stringPart rest) .string
    | 0x2D :: rest => leaf (numeral true rest) .number
    | 0x5B :: rest =>
      let (items, stop, rest) := elements steps true rest
      (.array items stop, rest)
    | 0x7B :: rest =>
      match skipBlanks rest with
      | b :: _ =>
        if b = 0x22 ∨ b = 0x7D then
          let (entries, stop, rest) := members steps true rest
          (.object entries stop, rest)
        else (.keyless, none)
      | [] => (.object [] (.broken .ended), none)
    | b :: rest =>
      if isDigit b then leaf (numeral false (b :: rest)) .number
      else (.broken (.always .malformed), none)

/-- Items up to the end of an array. -/
def elements : Nat → Bool → List UInt8 → List Source × Stop × Option (List UInt8)
  | 0, _, _ => ([], .broken .ended, none)
  | steps + 1, first, bytes =>
    match skipBlanks bytes with
    | [] => ([], .broken .ended, none)
    | 0x5D :: rest => ([], .closed, some rest)
    | b :: rest =>
      if first then element steps (b :: rest)
      else if b = 0x2C then
        match skipBlanks rest with
        | [] => ([], .comma .ended, none)
        | 0x5D :: _ => ([], .comma .malformed, none)
        | rest => element steps rest
      else ([], .broken .malformed, none)

/-- Item at the front and the items behind it. -/
def element : Nat → List UInt8 → List Source × Stop × Option (List UInt8)
  | 0, _ => ([], .broken .ended, none)
  | steps + 1, bytes =>
    match value steps bytes with
    | (item, none) => ([item], .broken .malformed, none)
    | (item, some rest) =>
      let (items, stop, rest) := elements steps false rest
      (item :: items, stop, rest)

/-- Members up to the end of an object. -/
def members : Nat → Bool → List UInt8 →
    List (Except JsonProblem String × Source) × Stop × Option (List UInt8)
  | 0, _, _ => ([], .broken .ended, none)
  | steps + 1, first, bytes =>
    match skipBlanks bytes with
    | [] => ([], .broken .ended, none)
    | 0x7D :: rest => ([], .closed, some rest)
    | b :: rest =>
      if first then member steps (b :: rest)
      else if b = 0x2C then
        match skipBlanks rest with
        | [] => ([], .comma .ended, none)
        | 0x22 :: rest => member steps (0x22 :: rest)
        | _ => ([], .comma .malformed, none)
      else ([], .broken .malformed, none)

/-- Member at the front, which begins with a quote, and the members behind it. -/
def member : Nat → List UInt8 →
    List (Except JsonProblem String × Source) × Stop × Option (List UInt8)
  | 0, _ => ([], .broken .ended, none)
  | steps + 1, bytes =>
    match stringPart (bytes.drop 1) with
    | .error cause => ([(.error cause.reading, .broken cause)], .broken .malformed, none)
    | .ok (key, rest) =>
      match skipBlanks rest with
      | [] => ([(key, .broken (.always .ended))], .broken .malformed, none)
      | 0x3A :: rest =>
        match value steps rest with
        | (item, none) => ([(key, item)], .broken .malformed, none)
        | (item, some rest) =>
          let (entries, stop, rest) := members steps false rest
          ((key, item) :: entries, stop, rest)
      | _ => ([(key, .broken (.always .malformed))], .broken .malformed, none)

end

/-- Source of a whole text, and whether something else follows the value. -/
structure Document where
  root : Source
  trailing : Bool

/-- Source of a text. -/
def Document.ofBytes (bytes : List UInt8) : Document :=
  let (root, rest) := value (3 * bytes.length + 3) bytes
  ⟨root, !(skipBlanks (rest.getD [])).isEmpty⟩

end Chiptune.Json
