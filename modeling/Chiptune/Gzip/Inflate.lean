/-!
# DEFLATE decompression

The format of RFC 1951: blocks that are stored or coded with two prefix codes, one for literals and
lengths and one for distances. Malformed and truncated data have no decompressed form.
-/

set_option autoImplicit false

namespace Chiptune.Gzip

/-! ## Bits -/

/-- Bits to be read: the rest of the current byte, low bit first, and the bytes behind it. -/
structure Bits where
  current : Nat := 0
  /-- Bits left in the current byte. -/
  count : Nat := 0
  rest : List UInt8
  deriving DecidableEq

namespace Bits

/-- Read one bit. -/
def next (b : Bits) : Option (Bool × Bits) :=
  if b.count = 0 then
    match b.rest with
    | [] => none
    | byte :: rest => some (byte.toNat % 2 == 1, ⟨byte.toNat / 2, 7, rest⟩)
  else some (b.current % 2 == 1, ⟨b.current / 2, b.count - 1, b.rest⟩)

/-- Read a number of bits as a number, low bit first. -/
def take : Nat → Bits → Option (Nat × Bits)
  | 0, b => some (0, b)
  | n + 1, b => do
    let (bit, b) ← b.next
    let (high, b) ← take n b
    return (2 * high + bit.toNat, b)

end Bits

/-! ## Prefix codes -/

/-- Prefix code as a tree; an empty branch is a code that stands for nothing. -/
inductive Code
  | empty
  | leaf (symbol : Nat)
  | node (zero one : Code)

namespace Code

/-- Read one symbol. -/
def read : Code → Bits → Option (Nat × Bits)
  | empty, _ => none
  | leaf symbol, b => some (symbol, b)
  | node zero one, b => do
    let (bit, b) ← b.next
    if bit then one.read b else zero.read b

/-- Whether no code stands for nothing. -/
def isComplete : Code → Bool
  | empty => false
  | leaf _ => true
  | node zero one => zero.isComplete && one.isComplete

/-- Put a symbol at the code word of a given length, high bit first. -/
def insert (symbol word : Nat) : Nat → Code → Option Code
  | 0, empty => some (leaf symbol)
  | n + 1, empty =>
    if word.testBit n then (insert symbol word n empty).map (node empty)
    else (insert symbol word n empty).map (node · empty)
  | n + 1, node zero one =>
    if word.testBit n then (insert symbol word n one).map (node zero)
    else (insert symbol word n zero).map (node · one)
  | _, _ => none

/-- Longest code word. -/
def maxLength : Nat := 15

/-- Code whose words have given lengths, 0 for symbols without a word. Shorter words come first, and
words of one length are in the order of their symbols. A code has to be complete unless it has no
word, or a single word of one bit. -/
def ofLengths (lengths : List Nat) : Option Code := do
  let symbols := (List.range' 1 maxLength).flatMap fun n =>
    lengths.zipIdx.filterMap fun (length, symbol) => if length = n then some (n, symbol) else none
  let (code, _) ← symbols.foldlM (fun (state : Code × Nat × Nat) (n, symbol) => do
      let (code, word, length) := state
      let word := word <<< (n - length)
      if 1 <<< n ≤ word then failure
      let code ← code.insert symbol word n
      return (code, word + 1, n)) (empty, 0, 0)
  match symbols with
  | [] | [(1, _)] => return code
  | _ => if code.isComplete then return code else failure

end Code

/-! ## Blocks -/

/-- Least length and extra bits of each length symbol. -/
def lengthBases : List (Nat × Nat) :=
  [(3, 0), (4, 0), (5, 0), (6, 0), (7, 0), (8, 0), (9, 0), (10, 0), (11, 1), (13, 1), (15, 1),
    (17, 1), (19, 2), (23, 2), (27, 2), (31, 2), (35, 3), (43, 3), (51, 3), (59, 3), (67, 4),
    (83, 4), (99, 4), (115, 4), (131, 5), (163, 5), (195, 5), (227, 5), (258, 0)]

/-- Least distance and extra bits of each distance symbol. -/
def distanceBases : List (Nat × Nat) :=
  [(1, 0), (2, 0), (3, 0), (4, 0), (5, 1), (7, 1), (9, 2), (13, 2), (17, 3), (25, 3), (33, 4),
    (49, 4), (65, 5), (97, 5), (129, 6), (193, 6), (257, 7), (385, 7), (513, 8), (769, 8),
    (1025, 9), (1537, 9), (2049, 10), (3073, 10), (4097, 11), (6145, 11), (8193, 12),
    (12289, 12), (16385, 13), (24577, 13)]

/-- Value of a symbol with extra bits. -/
def readExtra (bases : List (Nat × Nat)) (symbol : Nat) (b : Bits) : Option (Nat × Bits) := do
  let (base, extra) ← bases[symbol]?
  let (offset, b) ← b.take extra
  return (base + offset, b)

/-- Byte at a distance back from the end of the output, which zeros stand before. -/
def byteBack (distance : Nat) (out : Array UInt8) : UInt8 :=
  if distance ≤ out.size then out.getD (out.size - distance) 0 else 0

/-- Copy bytes from a distance back in the output. -/
def copyBack (distance : Nat) : Nat → Array UInt8 → Array UInt8
  | 0, out => out
  | n + 1, out => copyBack distance n (out.push (byteBack distance out))

/-- Decompress a coded block. The first argument bounds the number of symbols. -/
def inflateCoded (literals distances : Code) : Nat → Bits → Array UInt8 →
    Option (Array UInt8 × Bits)
  | 0, _, _ => none
  | steps + 1, b, out =>
    match literals.read b with
    | none => none
    | some (symbol, b) =>
      if symbol < 256 then inflateCoded literals distances steps b (out.push (UInt8.ofNat symbol))
      else if symbol = 256 then some (out, b)
      else
        match (do
          let (length, b) ← readExtra lengthBases (symbol - 257) b
          let (distanceSymbol, b) ← distances.read b
          let (distance, b) ← readExtra distanceBases distanceSymbol b
          return (copyBack distance length out, b)) with
        | none => none
        | some (out, b) => inflateCoded literals distances steps b out

/-- Decompress a stored block, which starts at the next byte. -/
def inflateStored (b : Bits) (out : Array UInt8) : Option (Array UInt8 × Bits) :=
  match b.rest with
  | l₀ :: l₁ :: n₀ :: n₁ :: rest =>
    let length := l₀.toNat + 256 * l₁.toNat
    if l₀ ^^^ n₀ = 0xFF ∧ l₁ ^^^ n₁ = 0xFF ∧ length ≤ rest.length then
      some (out ++ rest.take length, { rest := rest.drop length })
    else none
  | _ => none

/-- Literal code of blocks with fixed codes. -/
def fixedLiterals : List Nat :=
  List.replicate 144 8 ++ List.replicate 112 9 ++ List.replicate 24 7 ++ List.replicate 8 8

/-- Distance code of blocks with fixed codes. -/
def fixedDistances : List Nat := List.replicate 32 5

/-- Order in which the lengths of the length code are given. -/
def lengthCodeOrder : List Nat :=
  [16, 17, 18, 0, 8, 7, 9, 6, 10, 5, 11, 4, 12, 3, 13, 2, 14, 1, 15]

/-- Read a number of three-bit lengths. -/
def readSmallLengths : Nat → Bits → Option (List Nat × Bits)
  | 0, b => some ([], b)
  | n + 1, b => do
    let (length, b) ← b.take 3
    let (rest, b) ← readSmallLengths n b
    return (length :: rest, b)

/-- Read coded lengths, behind lengths in reverse order, until there are `total` of them. The first
argument bounds the number of symbols. -/
def readLengths (code : Code) (total : Nat) : Nat → List Nat → Bits → Option (List Nat × Bits)
  | 0, _, _ => none
  | steps + 1, done, b =>
    if total ≤ done.length then
      if done.length = total then some (done.reverse, b) else none
    else
      match code.read b with
      | none => none
      | some (symbol, b) =>
        let repeated (length bits base : Nat) : Option (List Nat × Bits) := do
          let (count, b) ← b.take bits
          return (List.replicate (base + count) length ++ done, b)
        let step : Option (List Nat × Bits) :=
          if symbol < 16 then some (symbol :: done, b)
          else if symbol = 16 then do
            let previous ← done.head?
            repeated previous 2 3
          else if symbol = 17 then repeated 0 3 3
          else repeated 0 7 11
        match step with
        | none => none
        | some (done, b) => readLengths code total steps done b

/-- Read the codes of a block that brings its own. -/
def readCodes (b : Bits) : Option ((Code × Code) × Bits) := do
  let (literalCount, b) ← b.take 5
  let (distanceCount, b) ← b.take 5
  let (lengthCount, b) ← b.take 4
  let literalCount := literalCount + 257
  let distanceCount := distanceCount + 1
  if 286 < literalCount ∨ 30 < distanceCount then failure
  let (lengths, b) ← readSmallLengths (lengthCount + 4) b
  let given := lengthCodeOrder.zip lengths
  let lengthCode ← Code.ofLengths ((List.range 19).map fun symbol => (given.lookup symbol).getD 0)
  let total := literalCount + distanceCount
  let (lengths, b) ← readLengths lengthCode total (total + 1) [] b
  let literals ← Code.ofLengths (lengths.take literalCount)
  let distances ← Code.ofLengths (lengths.drop literalCount)
  return ((literals, distances), b)

/-- Decompress blocks up to the last one. Both bounds are numbers of steps: each block and each
symbol takes at least one bit. -/
def inflateBlocks (symbols : Nat) : Nat → Bits → Array UInt8 → Option (Array UInt8 × List UInt8)
  | 0, _, _ => none
  | blocks + 1, b, out => do
    let (isLast, b) ← b.next
    let (type, b) ← b.take 2
    let (out, b) ←
      match type with
      | 0 => inflateStored b out
      | 1 => do
        let literals ← Code.ofLengths fixedLiterals
        let distances ← Code.ofLengths fixedDistances
        inflateCoded literals distances symbols b out
      | 2 => do
        let ((literals, distances), b) ← readCodes b
        inflateCoded literals distances symbols b out
      | _ => none
    if isLast then return (out, b.rest)
    inflateBlocks symbols blocks b out

/-- Decompressed data, and the bytes behind the compressed data. -/
def inflate (bytes : List UInt8) : Option (Array UInt8 × List UInt8) :=
  let bound := 8 * bytes.length + 1
  inflateBlocks bound bound { rest := bytes } #[]

end Chiptune.Gzip
