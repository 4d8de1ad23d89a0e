import JvmPatch.Decimal.Integer

/-! Binary floating point numbers as bit patterns. A format is given by the number of bits of its
fraction and of its exponent; a finite number is a sign and a magnitude `m * 2 ^ q`. -/

set_option autoImplicit false

namespace JvmPatch.Decimal

/-- A binary format: a sign bit, exponent bits and fraction bits, from high to low. -/
structure BinaryFormat where
  fractionBits : Nat
  exponentBits : Nat
  deriving DecidableEq, Repr

namespace BinaryFormat

def single : BinaryFormat := ⟨23, 8⟩

def double : BinaryFormat := ⟨52, 11⟩

/-- The exponent field of infinities and of values that are not numbers. -/
def specialField (f : BinaryFormat) : Nat := twoTo f.exponentBits - 1

def signBit (f : BinaryFormat) : Nat := twoTo (f.exponentBits + f.fractionBits)

/-- The power of two that the least significant bit of the smallest numbers stands for. -/
def minExponent (f : BinaryFormat) : Int :=
  2 - Int.ofNat (twoTo (f.exponentBits - 1)) - Int.ofNat f.fractionBits

end BinaryFormat

/-- What a bit pattern stands for. -/
inductive BinaryValue
  | nan
  | infinite (negative : Bool)
  /-- The number `mantissa * 2 ^ (minExponent + shift)`. -/
  | finite (negative : Bool) (mantissa shift : Nat)
  deriving DecidableEq, Repr

/-- Splits a bit pattern into its fields. -/
def BinaryFormat.value (f : BinaryFormat) (bits : Nat) : BinaryValue :=
  let negative := bits / f.signBit % 2 == 1
  let fraction := bits % twoTo f.fractionBits
  let field := bits / twoTo f.fractionBits % twoTo f.exponentBits
  if field = f.specialField then
    if fraction = 0 then .infinite negative else .nan
  else if field = 0 then .finite negative fraction 0
  else .finite negative (twoTo f.fractionBits + fraction) (field - 1)

def BinaryFormat.infinityBits (f : BinaryFormat) : Nat := f.specialField * twoTo f.fractionBits

/-- The quiet bit pattern that stands for no number, without a sign. -/
def BinaryFormat.nanBits (f : BinaryFormat) : Nat :=
  f.infinityBits + twoTo (f.fractionBits - 1)

/-- The bit pattern of `mantissa * 2 ^ (minExponent + shift)`, where the mantissa has one bit more
than the fraction or the shift is zero. A mantissa that rounding has carried to the next power of
two needs no special care, because the fields are added. A shift out of range gives an infinity. -/
def BinaryFormat.pack (f : BinaryFormat) (mantissa shift : Nat) : Nat :=
  let bits := shift * twoTo f.fractionBits + mantissa
  if f.infinityBits ≤ bits then f.infinityBits else bits

end JvmPatch.Decimal
