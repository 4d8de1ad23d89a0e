import JvmPatch.Decimal.Integer
import JvmPatch.Decimal.Shortest

/-! Reading decimals as binary floating point numbers, correctly rounded: the nearest number, and
of two that are equally near the one with an even mantissa. -/

set_option autoImplicit false

namespace JvmPatch.Decimal

/-- Why a text is not a floating point number. -/
inductive FloatError
  | empty
  | invalid
  deriving DecidableEq, Repr

def FloatError.message : FloatError → String
  | .empty => "cannot parse float from empty string"
  | .invalid => "invalid float literal"

/-- A quotient rounded to the nearest integer, a half to the even neighbour. -/
def roundDiv (num den : Nat) : Nat :=
  let k := num / den
  let r := 2 * (num % den)
  if den < r || (r == den && k % 2 == 1) then k + 1 else k

/-- The bit pattern nearest to the positive fraction `num / den`. -/
def BinaryFormat.nearest (f : BinaryFormat) (num den : Nat) : Nat :=
  let exponent := Int.ofNat (Nat.log2 num) - Int.ofNat (Nat.log2 den)
  let below := num * twoTo (-exponent).toNat < den * twoTo exponent.toNat
  let leading := if below then exponent - 1 else exponent
  let shift := (leading - Int.ofNat f.fractionBits - f.minExponent).toNat
  let unit := f.minExponent + Int.ofNat shift
  f.pack (roundDiv (num * twoTo (-unit).toNat) (den * twoTo unit.toNat)) shift

/-- The bit pattern nearest to a decimal. Magnitudes far outside of the format are settled by the
place of their leading digit. -/
def BinaryFormat.ofScientific (f : BinaryFormat) (d : Scientific) : Nat :=
  let leading := Int.ofNat (digitCount d.coefficient) + d.exponent
  let reach := Int.ofNat (twoTo f.exponentBits)
  if d.coefficient = 0 then 0
  else if reach < leading then f.infinityBits
  else if leading < -reach then 0
  else f.nearest (d.coefficient * tenTo d.exponent.toNat) (tenTo (-d.exponent).toNat)

/-- The digits at the start of a text, and the rest. -/
def splitDigits (s : List Char) : List Char × List Char :=
  s.span fun c => (digit? c).isSome

def digitsValue (s : List Char) : Nat := s.foldl (fun n c => n * 10 + (digit? c).getD 0) 0

/-- Reads an exponent, up to the end of the text. -/
def readExponent? : List Char → Option Int
  | [] => some 0
  | c :: s =>
    if c = 'e' ∨ c = 'E' then
      let signed : Bool × List Char :=
        match s with
        | '-' :: r => (true, r)
        | '+' :: r => (false, r)
        | r => (false, r)
      let digits := splitDigits signed.2
      if digits.1.isEmpty || !digits.2.isEmpty then none
      else
        let n := Int.ofNat (digitsValue digits.1)
        some (if signed.1 then -n else n)
    else none

/-- Reads a decimal without a sign: digits with an optional point, at least one digit in all, and
an optional exponent. -/
def readScientific? (s : List Char) : Option Scientific :=
  let whole := splitDigits s
  let fraction : List Char × List Char :=
    match whole.2 with
    | '.' :: r => splitDigits r
    | r => ([], r)
  if whole.1.isEmpty && fraction.1.isEmpty then none
  else
    (readExponent? fraction.2).map fun e =>
      ⟨digitsValue (whole.1 ++ fraction.1), e - Int.ofNat fraction.1.length⟩

/-- Reads a magnitude: a decimal, or one of the names `inf`, `infinity` and `nan` in any case. -/
def BinaryFormat.readMagnitude? (f : BinaryFormat) (s : List Char) : Option Nat :=
  let name := String.ofList (s.map Char.toLower)
  if name = "inf" ∨ name = "infinity" then some f.infinityBits
  else if name = "nan" then some f.nanBits
  else (readScientific? s).map f.ofScientific

/-- Reads a floating point number: an optional sign and a magnitude. -/
def BinaryFormat.read (f : BinaryFormat) (s : List Char) : Except FloatError Nat :=
  let signed : Bool × List Char :=
    match s with
    | '-' :: r => (true, r)
    | '+' :: r => (false, r)
    | r => (false, r)
  if s.isEmpty then .error .empty
  else
    match f.readMagnitude? signed.2 with
    | none => .error .invalid
    | some bits => .ok (if signed.1 then f.signBit + bits else bits)

end JvmPatch.Decimal
