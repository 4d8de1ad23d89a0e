import JvmPatch.Zip.Bits

/-! Reading compressed data. It comes in blocks; a block holds bytes as they are, or symbols of a
prefix code that stand for bytes and for repetitions of bytes that have been seen. -/

set_option autoImplicit false

namespace JvmPatch.Zip

/-- Lengths of repetitions: the smallest of each symbol, and the number of bits to be added. -/
def lengthSymbols : Array (Nat × Nat) :=
  #[(3, 0), (4, 0), (5, 0), (6, 0), (7, 0), (8, 0), (9, 0), (10, 0), (11, 1), (13, 1), (15, 1),
    (17, 1), (19, 2), (23, 2), (27, 2), (31, 2), (35, 3), (43, 3), (51, 3), (59, 3), (67, 4),
    (83, 4), (99, 4), (115, 4), (131, 5), (163, 5), (195, 5), (227, 5), (258, 0)]

/-- Distances of repetitions: the smallest of each symbol, and the number of bits to be added. -/
def distanceSymbols : Array (Nat × Nat) :=
  #[(1, 0), (2, 0), (3, 0), (4, 0), (5, 1), (7, 1), (9, 2), (13, 2), (17, 3), (25, 3), (33, 4),
    (49, 4), (65, 5), (97, 5), (129, 6), (193, 6), (257, 7), (385, 7), (513, 8), (769, 8),
    (1025, 9), (1537, 9), (2049, 10), (3073, 10), (4097, 11), (6145, 11), (8193, 12),
    (12289, 12), (16385, 13), (24577, 13)]

/-- The value of a symbol with the bits that are added. -/
def readValue (symbols : Array (Nat × Nat)) (symbol : Nat) : BitReader Nat := do
  let (base, width) ← orFailure symbols[symbol]?
  pure (base + (← number width))

/-- Repeats bytes that end in front of the output. -/
def repeatBytes (distance length : Nat) (out : Array UInt8) : Array UInt8 :=
  Nat.repeat (fun out => out.push ((out[out.size - distance]?).getD 0)) length out

def endOfBlock : Nat := 256

/-- Reads the symbols of a block. Each takes at least one bit, so the number of bits bounds that of
symbols. -/
def readSymbols (lengths distances : PrefixCode) : Nat → Array UInt8 → BitReader (Array UInt8)
  | 0, _ => failure
  | fuel + 1, out => do
    let symbol ← lengths.read
    if symbol < endOfBlock then readSymbols lengths distances fuel (out.push (UInt8.ofNat symbol))
    else if symbol = endOfBlock then pure out
    else
      let length ← readValue lengthSymbols (symbol - endOfBlock - 1)
      let distance ← readValue distanceSymbols (← distances.read)
      if out.size < distance then failure
      else readSymbols lengths distances fuel (repeatBytes distance length out)

def readStored (out : Array UInt8) : BitReader (Array UInt8) := do
  alignToByte
  let length ← number 16
  let complement ← number 16
  if length + complement ≠ 0xffff then failure
  else
    let bytes ← (List.range length).mapM fun _ => number 8
    pure (out ++ (bytes.map UInt8.ofNat).toArray)

/-- The code of a block without a code of its own. -/
def fixedLengths : PrefixCode :=
  .ofLengths (List.replicate 144 8 ++ List.replicate 112 9 ++ List.replicate 24 7 ++
    List.replicate 8 8)

/-- The code of distances of a block without a code of its own. -/
def fixedDistances : PrefixCode := .ofLengths (List.replicate 30 5)

/-- The order in which the lengths of the code of code lengths are given. -/
def lengthOrder : List Nat :=
  [16, 17, 18, 0, 8, 7, 9, 6, 10, 5, 11, 4, 12, 3, 13, 2, 14, 1, 15]

/-- Reads code lengths up to a given number of them. Each symbol gives at least one. -/
def readLengths (code : PrefixCode) (total : Nat) : Nat → Array Nat → BitReader (Array Nat)
  | 0, lengths => pure lengths
  | fuel + 1, lengths =>
    if total ≤ lengths.size then pure lengths
    else do
      let again := fun (length count : Nat) =>
        readLengths code total fuel (lengths ++ Array.replicate count length)
      let symbol ← code.read
      if symbol < 16 then again symbol 1
      else if symbol = 16 then
        let last ← orFailure lengths.back?
        again last (3 + (← number 2))
      else if symbol = 17 then again 0 (3 + (← number 3))
      else again 0 (11 + (← number 7))

def readCodes : BitReader (PrefixCode × PrefixCode) := do
  let literals := 257 + (← number 5)
  let distances := 1 + (← number 5)
  let given ← (lengthOrder.take (4 + (← number 4))).mapM fun symbol => do
    pure (symbol, ← number 3)
  let code := PrefixCode.ofLengths ((List.range 19).map fun s => (given.lookup s).getD 0)
  let total := literals + distances
  let lengths ← readLengths code total total #[]
  if lengths.size ≠ total then failure
  else
    pure (.ofLengths (lengths.toList.take literals), .ofLengths (lengths.toList.drop literals))

/-- Reads a block. The result also says whether it is the last one. -/
def readBlock (out : Array UInt8) : BitReader (Bool × Array UInt8) := do
  let isLast ← bit
  let fuel := (← get).length
  match ← number 2 with
  | 0 => pure (isLast, ← readStored out)
  | 1 => pure (isLast, ← readSymbols fixedLengths fixedDistances fuel out)
  | 2 =>
    let (lengths, distances) ← readCodes
    pure (isLast, ← readSymbols lengths distances fuel out)
  | _ => failure

def readBlocks : Nat → Array UInt8 → BitReader (Array UInt8)
  | 0, _ => failure
  | fuel + 1, out => do
    let (isLast, out) ← readBlock out
    if isLast then pure out else readBlocks fuel out

/-- The bytes that compressed data stands for. -/
def inflate (s : List UInt8) : Option (List UInt8) :=
  let bits := bitsOf s
  ((readBlocks bits.length #[]).run bits).map fun r => r.1.toList

end JvmPatch.Zip
