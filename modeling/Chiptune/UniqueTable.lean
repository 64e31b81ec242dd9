import Chiptune.Checksum
import Std.Data.HashMap

/-!
# Tables of unique byte strings

A `UniqueTable` numbers byte strings in order of first appearance. A tag separates strings of the
same bytes that are played differently. Entries are found through the checksum of their bytes and
tag.
-/

set_option autoImplicit false

namespace Chiptune

/-- Table of unique byte strings. -/
structure UniqueTable where
  entries : Array (List UInt8) := #[]
  /-- Indices of the entries of each checksum, oldest first. -/
  buckets : Std.HashMap UInt32 (List Nat) := {}

namespace UniqueTable

/-- The table without entries. -/
def empty : UniqueTable := {}

/-- Checksum of a byte string and its tag. -/
def key (bytes : List UInt8) (tag : UInt8) : UInt32 := Checksum.crc32 (bytes ++ [tag])

/-- Index of a byte string among the entries of its checksum. -/
def find? (t : UniqueTable) (bytes : List UInt8) (tag : UInt8) : Option Nat :=
  (t.buckets.getD (key bytes tag) []).find? fun index => t.entries[index]? == some bytes

/-- Index of a byte string, which is added on first sight. -/
def intern (t : UniqueTable) (bytes : List UInt8) (tag : UInt8) : Nat × UniqueTable :=
  match t.find? bytes tag with
  | some index => (index, t)
  | none =>
    let index := t.entries.size
    let bucket := t.buckets.getD (key bytes tag) []
    (index, ⟨t.entries.push bytes, t.buckets.insert (key bytes tag) (bucket ++ [index])⟩)

/-- Table whose first entry is given. -/
def withDefault (bytes : List UInt8) : UniqueTable := (empty.intern bytes 0).2

/-- Entry of an index. -/
def get? (t : UniqueTable) (index : Nat) : Option (List UInt8) := t.entries[index]?

/-- Entries in order of their indices. -/
def toList (t : UniqueTable) : List (List UInt8) := t.entries.toList

/-- Number of entries. -/
def size (t : UniqueTable) : Nat := t.entries.size

/-- Bytes of all entries together. -/
def totalBytes (t : UniqueTable) : Nat := t.toList.foldr (·.length + ·) 0

end UniqueTable

end Chiptune
