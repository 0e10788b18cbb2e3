/-
# Packed bytes

Object files hold their bytes packed: a two-byte header, blocks of compressed data, and a checksum.
Packing writes blocks that hold bytes as they are; unpacking reads blocks of all three kinds.

These are `compress` and `decompress` of `Database`.

* `Deflate.pack`: bytes in packed form.
* `Deflate.unpack?`: the bytes that a packed form stands for.
-/
import LocalVcs.Bytes

namespace LocalVcs.Deflate

/-! ## 1. Packing -/

/-- A number below 65536 as two bytes, the less significant first. -/
def littleEndian (n : Nat) : Bytes := [UInt8.ofNat (n % 256), UInt8.ofNat (n / 256)]

/-- The checksum: the sum of the bytes, and the sum of its values after each byte. -/
def checksum (bytes : Bytes) : Nat :=
  let (low, high) := bytes.foldl (fun (low, high) b =>
    let low := (low + b.toNat) % 65521
    (low, (high + low) % 65521)) (1, 0)
  high * 65536 + low

/-- A number below 2^32 as four bytes, the most significant first. -/
def fourBytes (n : Nat) : Bytes := [24, 16, 8, 0].map fun shift => UInt8.ofNat (n >>> shift % 256)

/-- The most bytes that one block holds as they are. -/
def blockSize : Nat := 65535

/-- Blocks that hold bytes as they are; at least one, and at most `count` before the last. -/
def storedBlocks : Nat → Bytes → Bytes
  | 0, bytes => 1 :: littleEndian bytes.length ++ littleEndian (65535 - bytes.length) ++ bytes
  | count + 1, bytes =>
    if bytes.length ≤ blockSize then storedBlocks 0 bytes
    else
      0 :: littleEndian blockSize ++ littleEndian 0 ++ bytes.take blockSize ++
        storedBlocks count (bytes.drop blockSize)

/-- Bytes in packed form. -/
def pack (bytes : Bytes) : Bytes :=
  [0x78, 0x01] ++ storedBlocks (bytes.length / blockSize) bytes ++ fourBytes (checksum bytes)

/-! ## 2. Reading bits -/

/-- Bytes, so many bits of the first one being read already. -/
structure Bits where
  used : Nat
  bytes : Bytes

/-- Reads a value off the bits, or refuses. -/
abbrev Reader := StateT Bits Option

/-- The next bit. -/
def bit : Reader Nat := fun b =>
  match b.bytes with
  | [] => none
  | first :: rest =>
    some (first.toNat >>> b.used % 2, if b.used = 7 then ⟨0, rest⟩ else ⟨b.used + 1, b.bytes⟩)

/-- The number that the next bits make, the least significant first. -/
def bits : Nat → Reader Nat
  | 0 => pure 0
  | count + 1 => do
    let first ← bit
    let rest ← bits count
    return first + 2 * rest

/-- Goes on to the next whole byte. -/
def align : Reader Unit := fun b => some ((), if b.used = 0 then b else ⟨0, b.bytes.tail⟩)

/-- The next whole bytes. -/
def wholeBytes (count : Nat) : Reader Bytes := fun b =>
  if count ≤ b.bytes.length then some (b.bytes.take count, ⟨0, b.bytes.drop count⟩) else none

/-! ## 3. Codes -/

/-- A code for symbols: how many of them have each length, from one bit on, and the symbols in the
order of their codes. -/
structure Code where
  counts : List Nat
  symbols : Array Nat

/-- The code in which each symbol has the length that stands at its place; zero for no code. -/
def Code.ofLengths (lengths : List Nat) : Code :=
  let ofLength (n : Nat) := (lengths.zipIdx.filter fun p => p.1 = n).map Prod.snd
  let sorted := (List.range 15).map fun n => ofLength (n + 1)
  ⟨sorted.map List.length, sorted.flatten.toArray⟩

/-- Reads a symbol whose code has more bits than those read: they make `code`, `start` is the first
code of their length, and `index` symbols have shorter codes. -/
def readFrom (symbols : Array Nat) : List Nat → Nat → Nat → Nat → Reader Nat
  | [], _, _, _ => failure
  | count :: longer, code, start, index => do
    let code := code + (← bit)
    if code < start + count then
      match symbols[index + (code - start)]? with
      | some symbol => return symbol
      | none => failure
    else readFrom symbols longer (2 * code) (2 * (start + count)) (index + count)

/-- The next symbol of a code. -/
def Code.read (c : Code) : Reader Nat := readFrom c.symbols c.counts 0 0 0

/-- The codes for literals and lengths, and for distances, that need no description. -/
def fixedCodes : Code × Code :=
  (Code.ofLengths (List.replicate 144 8 ++ List.replicate 112 9 ++ List.replicate 24 7 ++
      List.replicate 8 8),
    Code.ofLengths (List.replicate 30 5))

/-- The order in which the lengths of the code for lengths are told. -/
def lengthOrder : List Nat := [16, 17, 18, 0, 8, 7, 9, 6, 10, 5, 11, 4, 12, 3, 13, 2, 14, 1, 15]

/-- Reads code lengths until there are `total`, told in a code of their own with repetitions.  Each
takes a bit at least, so `fuel` bounds their number. -/
def readLengths (c : Code) (total : Nat) : Nat → List Nat → Reader (List Nat)
  | 0, _ => failure
  | fuel + 1, known => do
    if total ≤ known.length then
      if known.length = total then return known else failure
    else
      let symbol ← c.read
      if symbol < 16 then readLengths c total fuel (known ++ [symbol])
      else if symbol = 16 then
        match known.getLast? with
        | none => failure
        | some last =>
          readLengths c total fuel (known ++ List.replicate (3 + (← bits 2)) last)
      else if symbol = 17 then
        readLengths c total fuel (known ++ List.replicate (3 + (← bits 3)) 0)
      else readLengths c total fuel (known ++ List.replicate (11 + (← bits 7)) 0)

/-- Reads the description of the two codes of a block. -/
def describedCodes : Reader (Code × Code) := do
  let literals := 257 + (← bits 5)
  let distances := 1 + (← bits 5)
  let told := 4 + (← bits 4)
  let lengths ← (List.range told).mapM fun _ => bits 3
  let byOrder := lengthOrder.zip lengths
  let lengthCode := Code.ofLengths ((List.range 19).map fun n => (byOrder.lookup n).getD 0)
  let all ← readLengths lengthCode (literals + distances) (literals + distances + 1) []
  return (Code.ofLengths (all.take literals), Code.ofLengths (all.drop literals))

/-! ## 4. Blocks -/

/-- The least length for each of the symbols from 257 on, and how many bits are added to it. -/
def lengthBases : Array (Nat × Nat) :=
  #[(3, 0), (4, 0), (5, 0), (6, 0), (7, 0), (8, 0), (9, 0), (10, 0), (11, 1), (13, 1), (15, 1),
    (17, 1), (19, 2), (23, 2), (27, 2), (31, 2), (35, 3), (43, 3), (51, 3), (59, 3), (67, 4),
    (83, 4), (99, 4), (115, 4), (131, 5), (163, 5), (195, 5), (227, 5), (258, 0)]

/-- The least distance for each symbol, and how many bits are added to it. -/
def distanceBases : Array (Nat × Nat) :=
  #[(1, 0), (2, 0), (3, 0), (4, 0), (5, 1), (7, 1), (9, 2), (13, 2), (17, 3), (25, 3), (33, 4),
    (49, 4), (65, 5), (97, 5), (129, 6), (193, 6), (257, 7), (385, 7), (513, 8), (769, 8),
    (1025, 9), (1537, 9), (2049, 10), (3073, 10), (4097, 11), (6145, 11), (8193, 12), (12289, 12),
    (16385, 13), (24577, 13)]

/-- Reads a number that is told as the place of its base and added bits. -/
def based (bases : Array (Nat × Nat)) (symbol : Nat) : Reader Nat :=
  match bases[symbol]? with
  | none => failure
  | some (least, added) => do return least + (← bits added)

/-- Repeats bytes of the output, one by one, from a distance before its end. -/
def copyBack (distance : Nat) : Nat → Array UInt8 → Array UInt8
  | 0, out => out
  | count + 1, out => copyBack distance count (out.push (out.getD (out.size - distance) 0))

/-- Reads the symbols of a block up to its end.  Each takes a bit at least, so `fuel` bounds their
number. -/
def readSymbols (literals distances : Code) : Nat → Array UInt8 → Reader (Array UInt8)
  | 0, _ => failure
  | fuel + 1, out => do
    let symbol ← literals.read
    if symbol < 256 then readSymbols literals distances fuel (out.push (UInt8.ofNat symbol))
    else if symbol = 256 then return out
    else
      let length ← based lengthBases (symbol - 257)
      let distance ← based distanceBases (← distances.read)
      if distance ≤ out.size then
        readSymbols literals distances fuel (copyBack distance length out)
      else failure

/-- Reads a block that holds bytes as they are. -/
def readStored (out : Array UInt8) : Reader (Array UInt8) := do
  align
  let size ← bits 16
  let check ← bits 16
  if size + check = 65535 then return out ++ (← wholeBytes size).toArray else failure

/-- Reads blocks up to the last one, at most `fuel` of them, each of at most `bound` symbols. -/
def readBlocks (bound : Nat) : Nat → Array UInt8 → Reader (Array UInt8)
  | 0, _ => failure
  | fuel + 1, out => do
    let last ← bit
    let kind ← bits 2
    let out ← match kind with
      | 0 => readStored out
      | 1 => readSymbols fixedCodes.1 fixedCodes.2 bound out
      | 2 => do
        let (literals, distances) ← describedCodes
        readSymbols literals distances bound out
      | _ => failure
    if last = 1 then return out else readBlocks bound fuel out

/-- The bytes that a packed form stands for; what follows the checksum is not looked at. -/
def unpack? (packed : Bytes) : Option Bytes :=
  match packed with
  | method :: flags :: rest =>
    if method.toNat % 16 = 8 ∧ (method.toNat * 256 + flags.toNat) % 31 = 0 ∧
        flags.toNat >>> 5 % 2 = 0 then
      let bound := 8 * rest.length + 1
      match (do let out ← readBlocks bound bound #[]; align; return (out, ← wholeBytes 4) :
          Reader (Array UInt8 × Bytes)) ⟨0, rest⟩ with
      | some ((out, sum), _) =>
        if sum = fourBytes (checksum out.toList) then some out.toList else none
      | none => none
    else none
  | _ => none

end LocalVcs.Deflate
