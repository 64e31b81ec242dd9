import Chiptune.Checksum
import Chiptune.Gzip.Inflate

/-!
# Gzip files

The format of RFC 1952, of which the first member is read: a header with optional parts, compressed
data, and a trailer with the checksum and the length of the data.
-/

set_option autoImplicit false

namespace Chiptune.Gzip

/-- Whether bytes begin like a gzip file. -/
def isGzip : List UInt8 → Bool
  | 0x1F :: 0x8B :: _ => true
  | _ => false

/-- Whether a flag is set. -/
def hasFlag (flags bit : UInt8) : Bool := flags &&& bit != 0

/-- Number of a sequence of bytes, low byte first. -/
def littleEndian : List UInt8 → Nat
  | [] => 0
  | b :: rest => b.toNat + 256 * littleEndian rest

/-- Skip the extra field. -/
def skipExtra : List UInt8 → Option (List UInt8)
  | low :: high :: rest =>
    let length := littleEndian [low, high]
    if length ≤ rest.length then some (rest.drop length) else none
  | _ => none

/-- Longest text in a header. -/
def maxText : Nat := 0xFFFF

/-- Skip a text that ends with a zero byte and has no more than the given number of other bytes. -/
def skipText : Nat → List UInt8 → Option (List UInt8)
  | _, [] => none
  | limit, b :: rest =>
    if b = 0 then some rest
    else match limit with
      | 0 => none
      | limit + 1 => skipText limit rest

/-- Skip the header's checksum if it is right. -/
def skipHeaderCheck (file : List UInt8) : List UInt8 → Option (List UInt8)
  | low :: high :: rest =>
    let header := file.take (file.length - (rest.length + 2))
    if (Checksum.crc32 header).toNat % 0x10000 = littleEndian [low, high] then some rest else none
  | _ => none

/-- Bytes behind the header. -/
def skipHeader (file : List UInt8) : Option (List UInt8) :=
  match file with
  | 0x1F :: 0x8B :: 0x08 :: flags :: _ :: _ :: _ :: _ :: _ :: _ :: rest => do
    if hasFlag flags 0xE0 then failure
    let rest ← if hasFlag flags 0x04 then skipExtra rest else some rest
    let rest ← if hasFlag flags 0x08 then skipText maxText rest else some rest
    let rest ← if hasFlag flags 0x10 then skipText maxText rest else some rest
    if hasFlag flags 0x02 then skipHeaderCheck file rest else some rest
  | _ => none

/-- Data of a gzip file, `none` if it is damaged. -/
def decompress (file : List UInt8) : Option (List UInt8) := do
  let compressed ← skipHeader file
  let (data, trailer) ← inflate compressed
  let data := data.toList
  if trailer.length < 8 then failure
  if littleEndian (trailer.take 4) ≠ (Checksum.crc32 data).toNat then failure
  if littleEndian ((trailer.drop 4).take 4) ≠ data.length % 0x100000000 then failure
  return data

end Chiptune.Gzip
