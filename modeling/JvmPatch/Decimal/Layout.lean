import JvmPatch.Decimal.Shortest

/-! The text of a floating point number: its shortest decimal, written positionally in a range of
magnitudes and with an exponent outside of it. -/

set_option autoImplicit false

namespace JvmPatch.Decimal

/-- How floating point numbers are laid out. A magnitude from `10 ^ least` up to but excluding
`10 ^ most` is written positionally. -/
structure Layout where
  least : Int
  most : Int
  nan : String
  infinity : String
  deriving DecidableEq, Repr

/-- The positional form. It always has a digit on both sides of the point. -/
def Scientific.positional (d : Scientific) : String :=
  let digits := Nat.toDigits 10 d.coefficient
  let point := Int.ofNat digits.length + d.exponent
  if point ≤ 0 then
    "0." ++ String.ofList (List.replicate (-point).toNat '0' ++ digits)
  else if d.exponent < 0 then
    String.ofList (digits.take point.toNat) ++ "." ++ String.ofList (digits.drop point.toNat)
  else String.ofList (digits ++ List.replicate d.exponent.toNat '0') ++ ".0"

/-- The form with an exponent: one digit before the point, and no point if no digit follows. -/
def Scientific.exponential (d : Scientific) : String :=
  let digits := Nat.toDigits 10 d.coefficient
  let exponent := Int.ofNat digits.length + d.exponent - 1
  let fraction := digits.drop 1
  String.ofList (digits.take 1) ++
    (if fraction.isEmpty then "" else "." ++ String.ofList fraction) ++ "e" ++ toString exponent

def Layout.magnitude (l : Layout) (d : Scientific) : String :=
  let leading := Int.ofNat (digitCount d.coefficient) + d.exponent - 1
  if l.least ≤ leading ∧ leading < l.most then d.positional else d.exponential

def Layout.text (l : Layout) (f : BinaryFormat) (bits : Nat) : String :=
  match f.value bits with
  | .nan => l.nan
  | .infinite negative => (if negative then "-" else "") ++ l.infinity
  | .finite negative mantissa shift =>
    (if negative then "-" else "") ++
      (if mantissa = 0 then "0.0" else l.magnitude (f.shortest mantissa shift))

/-- Scripts and messages write magnitudes from `1e-4` up to `1e16` positionally. -/
def Layout.plain : Layout := ⟨-4, 16, "NaN", "inf"⟩

end JvmPatch.Decimal
