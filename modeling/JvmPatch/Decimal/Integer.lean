/-! Reading decimal integers that have to fit a range. -/

set_option autoImplicit false

namespace JvmPatch.Decimal

/-! ### The powers by which binary and decimal numbers are scaled -/

def twoTo (n : Nat) : Nat := Nat.pow 2 n

def tenTo (n : Nat) : Nat := Nat.pow 10 n

/-! ### Reading -/

/-- The value of an ASCII digit. -/
def digit? (c : Char) : Option Nat :=
  if '0' ≤ c ∧ c ≤ '9' then some (c.toNat - '0'.toNat) else none

/-- Why a text is not an integer of the wanted range. -/
inductive IntegerError
  | empty
  | invalidDigit
  | tooLarge
  | tooSmall
  deriving DecidableEq, Repr

def IntegerError.message : IntegerError → String
  | .empty => "cannot parse integer from empty string"
  | .invalidDigit => "invalid digit found in string"
  | .tooLarge => "number too large to fit in target type"
  | .tooSmall => "number too small to fit in target type"

/-- Adds digits to a magnitude. Of a character that is no digit and a magnitude beyond the limit,
the one further left decides which error is reported. -/
def readDigits (limit : Nat) (overflow : IntegerError) : Nat → List Char → Except IntegerError Nat
  | m, [] => .ok m
  | m, c :: s =>
    match digit? c with
    | none => .error .invalidDigit
    | some d =>
      if m * 10 + d ≤ limit then readDigits limit overflow (m * 10 + d) s else .error overflow

/-- A range of integers, by the largest number and the largest magnitude below zero. A range
without negative numbers takes no minus sign either, not even before a zero. -/
structure IntegerRange where
  largest : Nat
  negative : Option Nat
  deriving DecidableEq, Repr

/-- The integers that fit `bits` bits in two's complement. -/
def IntegerRange.signed (bits : Nat) : IntegerRange :=
  ⟨twoTo (bits - 1) - 1, some (twoTo (bits - 1))⟩

/-- The natural numbers that fit `bits` bits. -/
def IntegerRange.unsigned (bits : Nat) : IntegerRange := ⟨twoTo bits - 1, none⟩

/-- Reads at least one digit. -/
def readMagnitude (limit : Nat) (overflow : IntegerError) (s : List Char) :
    Except IntegerError Nat :=
  if s.isEmpty then .error .invalidDigit else readDigits limit overflow 0 s

/-- Reads an integer: an optional sign and digits. -/
def readInteger (range : IntegerRange) : List Char → Except IntegerError Int
  | [] => .error .empty
  | c :: s =>
    if c = '+' then (readMagnitude range.largest .tooLarge s).map Int.ofNat
    else
      match range.negative with
      | some limit =>
        if c = '-' then (readMagnitude limit .tooSmall s).map fun m => -Int.ofNat m
        else (readMagnitude range.largest .tooLarge (c :: s)).map Int.ofNat
      | none => (readMagnitude range.largest .tooLarge (c :: s)).map Int.ofNat

/-- How an integer fails to fit a range that ends at `largest`. -/
def misfit (value largest : Int) : IntegerError :=
  if largest < value then .tooLarge else .tooSmall

end JvmPatch.Decimal
