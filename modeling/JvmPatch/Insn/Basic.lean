import JvmPatch.Constant
import JvmPatch.Opcode

/-! Method bodies as lists of instructions. Short and wide encodings of one instruction have one
form here, and branches go to labels, which are placed in the list like instructions. -/

set_option autoImplicit false

namespace JvmPatch

/-- A label, known by its number within one body. -/
structure Label where
  index : Nat
  deriving DecidableEq, Repr, Inhabited

/-- An instruction, or a marker that takes no bytes. -/
inductive Insn
  /-- Marks the place that branches to the label go to. -/
  | label (l : Label)
  /-- Marks the source line of the instructions that follow. -/
  | line (number : UInt16)
  /-- An instruction without operands. -/
  | simple (op : Opcode)
  /-- A constant is pushed. -/
  | push (value : Constant)
  | var (op : Opcode) (index : UInt16)
  | iinc (index : UInt16) (delta : Int16)
  | field (op : Opcode) (owner name desc : String)
  | invoke (op : Opcode) (owner name desc : String) (isInterface : Bool)
  /-- An instruction whose operand is a class: `new`, `anewarray`, `checkcast`, `instanceof`. -/
  | type (op : Opcode) (className : String)
  /-- An array of primitive elements, by the code of their type. -/
  | newArray (code : UInt8)
  | multiNewArray (desc : String) (dims : UInt8)
  | jump (op : Opcode) (target : Label)
  | tableSwitch (low high : Int32) (default : Label) (targets : List Label)
  | lookupSwitch (default : Label) (pairs : List (Int32 × Label))
  /-- An instruction that can be shown but neither matched nor written. -/
  | foreign (op : Opcode) (detail : String)
  deriving DecidableEq, Repr

namespace Insn

/-- Markers take no bytes. -/
def isPseudo : Insn → Bool
  | .label _ | .line _ => true
  | _ => false

/-- The labels that control may branch to from the instruction. -/
def branchTargets : Insn → List Label
  | .jump _ target => [target]
  | .tableSwitch _ _ default targets => default :: targets
  | .lookupSwitch default pairs => default :: pairs.map Prod.snd
  | _ => []

def placed? : Insn → Option Label
  | .label l => some l
  | _ => none

end Insn

/-- An exception region. Without a catch type it catches everything. -/
structure Region where
  start : Label
  stop : Label
  handler : Label
  catchType : Option String
  deriving DecidableEq, Repr

def Region.labels (r : Region) : List Label := [r.start, r.stop, r.handler]

/-- A method body. Labels from `nextLabel` on are not used by it. -/
structure Code where
  maxStack : UInt16 := 0
  maxLocals : UInt16 := 0
  insns : List Insn := []
  regions : List Region := []
  nextLabel : Nat := 0
  deriving DecidableEq, Repr

namespace Code

def placedLabels (code : Code) : List Label := code.insns.filterMap Insn.placed?

/-- The labels that branches and regions of a body refer to. -/
def usedLabels (code : Code) : List Label :=
  code.insns.flatMap Insn.branchTargets ++ code.regions.flatMap Region.labels

end Code

end JvmPatch
