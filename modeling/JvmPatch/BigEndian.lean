/-! Unsigned numbers as bytes, the most significant byte first. -/

set_option autoImplicit false

namespace JvmPatch

/-- The number that bytes stand for. -/
def bigEndian (s : List UInt8) : Nat := s.foldl (fun n b => n * 256 + b.toNat) 0

/-- The lowest `count` bytes of a number. -/
def toBigEndian : Nat → Nat → List UInt8
  | 0, _ => []
  | count + 1, n => toBigEndian count (n / 256) ++ [UInt8.ofNat n]

def bytes16 (n : UInt16) : List UInt8 := toBigEndian 2 n.toNat

def bytes32 (n : UInt32) : List UInt8 := toBigEndian 4 n.toNat

def bytes64 (n : UInt64) : List UInt8 := toBigEndian 8 n.toNat

end JvmPatch
