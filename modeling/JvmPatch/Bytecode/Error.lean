import JvmPatch.Decimal.Integer
import JvmPatch.Opcode

/-! What can be wrong with encoded instructions. -/

set_option autoImplicit false

namespace JvmPatch

/-- Why bytes are not the instructions of a method. -/
inductive BytecodeError
  /-- An operand of the given number of bits reaches past the end. -/
  | outOfBounds (bits : Nat)
  | tableRange
  | lookupCount
  | missingWideOpcode
  | unsupportedOpcode (op : Opcode)
  /-- The instruction at the offset reaches past the end. -/
  | invalidLength (offset : Nat)
  /-- The instruction at the offset branches to before the start. -/
  | branchBeforeStart (offset : Nat)
  /-- A branch goes into the middle of an instruction. -/
  | notABoundary (target : Nat)
  deriving DecidableEq, Repr

def BytecodeError.message : BytecodeError → String
  | .outOfBounds bits => s!"bytecode u{bits} out of bounds"
  | .tableRange => "invalid tableswitch range"
  | .lookupCount => "invalid lookupswitch pairs"
  | .missingWideOpcode => "missing wide opcode"
  | .unsupportedOpcode op => "unsupported opcode 0x" ++ op.hex
  | .invalidLength offset => s!"invalid bytecode length at offset {offset}"
  | .branchBeforeStart offset =>
    s!"branch at {offset} leaves the method: " ++ Decimal.IntegerError.tooSmall.message
  | .notABoundary target => s!"branch target {target} is not an instruction boundary"

end JvmPatch
