/-!
# CRC-32

The cyclic redundancy check of IEEE 802.3, with reflected bits.
-/

set_option autoImplicit false

namespace Chiptune.Checksum

/-- Generator polynomial with reflected bits. -/
def polynomial : UInt32 := 0xEDB88320

/-- Shift one bit out of the register. -/
def shiftBit (crc : UInt32) : UInt32 :=
  if crc &&& 1 = 1 then (crc >>> 1) ^^^ polynomial else crc >>> 1

/-- Take one byte into the register. -/
def step (crc : UInt32) (byte : UInt8) : UInt32 :=
  let crc := crc ^^^ byte.toUInt32
  shiftBit (shiftBit (shiftBit (shiftBit (shiftBit (shiftBit (shiftBit (shiftBit crc)))))))

/-- Checksum of a sequence of bytes. -/
def crc32 (bytes : List UInt8) : UInt32 := bytes.foldl step 0xFFFFFFFF ^^^ 0xFFFFFFFF

end Chiptune.Checksum
