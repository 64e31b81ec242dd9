/-!
# JSON numbers

A number is read into a significand that fits a machine word and a power of ten: further digits
are dropped, and count only for the power where they stand before the point. Its value in double
precision is the double of the significand times or over the double of the power, so that the
largest numbers that are in range are those whose product rounds to a finite double.
-/

set_option autoImplicit false

namespace Chiptune.Json

/-- Number as it is written, `significand · 10 ^ exponent` up to dropped digits. -/
structure Numeral where
  negative : Bool
  significand : Nat
  exponent : Int
  /-- Whether there is neither a fraction nor an exponent, and no digit is dropped. -/
  isInteger : Bool
  deriving DecidableEq

namespace Numeral

/-- Number of values of a machine word of 64 bits. -/
def wordRange : Nat := 0x10000000000000000

/-- Value of a decimal digit. -/
def digitValue (digit : UInt8) : Nat := digit.toNat - 0x30

/-- Put the leading digits, as far as they fit a machine word, behind a number; the second part is
how many digits do not fit. -/
def gather : Nat → List UInt8 → Nat × Nat
  | n, [] => (n, 0)
  | n, digit :: rest =>
    let next := 10 * n + digitValue digit
    if next < wordRange then gather next rest else (n, rest.length + 1)

/-- Bound of exponents, beyond what digits can make up for. -/
def exponentBound : Nat := 0x80000000

/-- Exponent of a string of decimal digits; larger ones count as the bound. -/
def exponentOf (digits : List UInt8) : Nat :=
  digits.foldl (fun n digit => min exponentBound (10 * n + digitValue digit)) 0

/-- Number of its digits before and behind the point and its exponent. -/
def ofParts (negative : Bool) (whole : List UInt8) (fraction : Option (List UInt8))
    (exponent : Option Int) : Numeral :=
  let (significand, dropped) := gather 0 whole
  let digits := fraction.getD []
  let (significand, ignored) := gather significand digits
  { negative, significand
    exponent := exponent.getD 0 + dropped - (digits.length - ignored : Nat)
    isInteger := fraction.isNone && exponent.isNone && dropped == 0 }

/-! ## Range -/

/-- Nearest integer with 53 significant bits, of two the one with an even significand. -/
def nearestDouble (n : Nat) : Nat :=
  let shift := n.log2 + 1 - 53
  let quotient := n >>> shift
  let rest := n - quotient <<< shift
  let unit := 1 <<< shift
  if 2 * rest < unit ∨ (2 * rest = unit ∧ quotient % 2 = 0) then quotient <<< shift
  else (quotient + 1) <<< shift

/-- Least value that rounds to infinity in double precision. -/
def overflowBound : Nat := 1 <<< 1024 - 1 <<< 970

/-- Largest power of ten in double precision. -/
def maxPower : Nat := 308

/-- Whether the number is too large for double precision. -/
def overflows (n : Numeral) : Bool :=
  if n.significand = 0 ∨ n.exponent < 0 then false
  else if maxPower < n.exponent then true
  else
    let power := Nat.pow 10 n.exponent.toNat
    overflowBound ≤ nearestDouble n.significand * nearestDouble power

/-- The integer of a number that is written without fraction and exponent and fits a machine word. A
negative zero is not an integer. -/
def toInt? (n : Numeral) : Option Int :=
  if !n.isInteger then none
  else if n.negative then
    if 0 < n.significand ∧ 2 * n.significand ≤ wordRange then some (-n.significand) else none
  else some n.significand

end Numeral

end Chiptune.Json
