/-! Reading bits, the lowest bit of each byte first. -/

set_option autoImplicit false

namespace JvmPatch.Zip

def bitsOf (s : List UInt8) : List Bool :=
  s.flatMap fun b => (List.range 8).map fun i => b.toNat.testBit i

abbrev BitReader := StateT (List Bool) Option

def bit : BitReader Bool
  | [] => none
  | b :: s => some (b, s)

/-- A number of the given width, its lowest bit first. -/
def number : Nat → BitReader Nat
  | 0 => pure 0
  | width + 1 => do
    let low ← bit
    pure (low.toNat + 2 * (← number width))

/-- Drops what is left of a byte. -/
def alignToByte : BitReader Unit := modify fun s => s.drop (s.length % 8)

/-- A value, or failure. -/
def orFailure {α : Type} : Option α → BitReader α
  | some a => pure a
  | none => failure

/-- A prefix code: the symbols of each length of code words, from one bit on. Code words of one
length are consecutive numbers, and they follow on those of the length before. -/
structure PrefixCode where
  symbols : List (Array Nat)
  deriving DecidableEq, Repr

namespace PrefixCode

def maxLength : Nat := 15

/-- The code in which each symbol has a code word of the given length, or none if that is zero. -/
def ofLengths (lengths : List Nat) : PrefixCode :=
  ⟨(List.range maxLength).map fun n =>
    ((lengths.zipIdx.filter fun e => e.1 == n + 1).map Prod.snd).toArray⟩

/-- Reads a symbol, where `offset` says how far the bits so far lie behind the last code word that
is shorter than what follows. -/
def readFrom : Nat → List (Array Nat) → BitReader Nat
  | _, [] => failure
  | offset, group :: groups => do
    let offset := 2 * offset + (← bit).toNat
    match group[offset]? with
    | some symbol => pure symbol
    | none => readFrom (offset - group.size) groups

def read (code : PrefixCode) : BitReader Nat := readFrom 0 code.symbols

end PrefixCode

end JvmPatch.Zip
