import JvmPatch.Decimal.Layout

/-! Constants of class files. Floating point constants are bit patterns, so two of them are equal
iff they agree bit for bit, values that are not numbers included. -/

set_option autoImplicit false

namespace JvmPatch

/-- A constant that an instruction can push or a field can hold. -/
inductive Constant
  | int (value : Int32)
  | long (value : Int64)
  | float (bits : UInt32)
  | double (bits : UInt64)
  | string (value : String)
  /-- The plain name of a class, or the descriptor of an array. -/
  | classRef (name : String)
  deriving DecidableEq, Repr

/-- The text of a single precision number. -/
def floatText (bits : UInt32) : String := Decimal.Layout.plain.text .single bits.toNat

def doubleText (bits : UInt64) : String := Decimal.Layout.plain.text .double bits.toNat

/-- The integer that a 32-bit word stands for, in decimal. -/
def intText (value : Int32) : String := toString value.toInt

/-- The integer that a 64-bit word stands for, in decimal. -/
def longText (value : Int64) : String := toString value.toInt

/-- Whether the constant takes two slots. -/
def Constant.isWide : Constant → Bool
  | .long _ | .double _ => true
  | _ => false

end JvmPatch
