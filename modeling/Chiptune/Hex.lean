/-!
# Hexadecimal digits

Fixed-width hexadecimal numbers as assembler sources and messages write them, in upper case.
-/

set_option autoImplicit false

namespace Chiptune.Hex

/-- Upper-case digit of a value below 16. -/
def digit (n : Nat) : Char := "0123456789ABCDEF".toList.getD n '0'

/-- The low two digits of a number. -/
def byte (n : Nat) : String := String.ofList [digit (n / 16 % 16), digit (n % 16)]

/-- The low four digits of a number. -/
def word (n : Nat) : String := byte (n / 256) ++ byte n

end Chiptune.Hex
