import JvmPatch.Descriptor.Basic
import JvmPatch.Ident
import JvmPatch.Opcode

/-! Patterns for instructions, with the operands that a script gives. -/

set_option autoImplicit false

namespace JvmPatch

/-- An operand of a pattern: any value, or one value. -/
inductive Operand (α : Type)
  | any
  | is (value : α)
  deriving DecidableEq, Repr

namespace Operand

def accepts {α : Type} [DecidableEq α] : Operand α → α → Bool
  | .any, _ => true
  | .is expected, value => expected == value

def value? {α : Type} : Operand α → Option α
  | .any => none
  | .is value => some value

def isAny {α : Type} (o : Operand α) : Bool := o.value?.isNone

end Operand

/-- A label of a pattern: any label, or the one that a weak name stands for. -/
inductive LabelRef
  | any
  | weak (name : String)
  deriving DecidableEq, Repr

/-- A pattern for one instruction or, for `tryCatch`, one exception region; `any` stands for any
number of instructions. -/
inductive Pattern
  | any
  | label (l : LabelRef)
  | single (op : Opcode)
  | pushInt (value : Operand Int32)
  | pushLong (value : Operand Int64)
  | pushFloat (bits : Operand UInt32)
  | pushDouble (bits : Operand UInt64)
  | pushString (value : Operand String)
  | pushClass (type : Operand TypeDesc)
  | var (op : Opcode) (index : Operand UInt16)
  | incInt (index : Operand UInt16) (delta : Operand Int16)
  | jump (op : Opcode) (target : LabelRef)
  | tableSwitch (low high : Operand Int32) (default : LabelRef) (targets : List LabelRef)
  | lookupSwitch (default : LabelRef) (cases : List (Operand Int32 × LabelRef))
  /-- Without a catch type the region has to catch everything. -/
  | tryCatch (start stop handler : LabelRef) (catchType : Option TypeDesc)
  /-- The return instruction that fits the result of the method. -/
  | ret
  | field (op : Opcode) (owner name : Ident) (type : TypeDesc) (desc : String)
  | invoke (op : Opcode) (owner name : Ident) (type : MethodDesc) (desc : String)
  | type (op : Opcode) (operand : Operand TypeDesc)
  | newArray (element : Operand TypeDesc)
  | newArrayMulti (type : Operand TypeDesc) (dims : Operand UInt8)
  deriving DecidableEq, Repr

/-- Whether a type has a class that can be anything. -/
def TypeDesc.hasWildcard (t : TypeDesc) : Bool :=
  match t.base with
  | .object name => isAnyName name
  | _ => false

def Operand.isOpenType (o : Operand TypeDesc) : Bool :=
  match o with
  | .any => true
  | .is t => t.hasWildcard

namespace Pattern

def isTryCatch : Pattern → Bool
  | .tryCatch .. => true
  | _ => false

def isLabel : Pattern → Bool
  | .label _ => true
  | _ => false

/-- Whether an operand of the pattern leaves open what it stands for. -/
def hasWildcard : Pattern → Bool
  | .any | .single _ | .ret => false
  | .label l | .jump _ l => l == .any
  | .pushInt v => v.isAny
  | .pushLong v => v.isAny
  | .pushFloat v => v.isAny
  | .pushDouble v => v.isAny
  | .pushString v => v.isAny
  | .pushClass t | .type _ t | .newArray t => t.isOpenType
  | .var _ index => index.isAny
  | .incInt index delta => index.isAny || delta.isAny
  | .tableSwitch low high default targets =>
    low.isAny || high.isAny || default == .any || targets.contains .any
  | .lookupSwitch default cases =>
    default == .any || cases.any fun c => c.1.isAny || c.2 == .any
  | .tryCatch start stop handler catchType =>
    [start, stop, handler].contains .any || catchType.any TypeDesc.hasWildcard
  | .field _ owner name ty _ => owner.isWildcard || name.isWildcard || ty.hasWildcard
  | .invoke _ owner name ty _ =>
    owner.isWildcard || name.isWildcard || ty.params.any TypeDesc.hasWildcard ||
      ty.result.hasWildcard
  | .newArrayMulti ty dims => ty.isOpenType || dims.isAny

end Pattern

/-- Why a pattern cannot be added as an instruction. -/
inductive AddError
  | any
  | wildcard
  deriving DecidableEq, Repr

def AddError.message : AddError → String
  | .any => "any cannot be added"
  | .wildcard => "wildcard operands cannot be added"

/-- A pattern can be added if it says all about the instruction. -/
def Pattern.checkAddable (p : Pattern) : Except AddError Unit :=
  if p = .any then .error .any else if p.hasWildcard then .error .wildcard else .ok ()

/-- The return instruction for methods with a given result. -/
def TypeDesc.returnOp (t : TypeDesc) : Opcode :=
  if t.isArray then Opcode.areturn
  else
    match t.base with
    | .void => Opcode.voidReturn
    | .long => Opcode.lreturn
    | .float => Opcode.freturn
    | .double => Opcode.dreturn
    | .object _ => Opcode.areturn
    | .boolean | .byte | .char | .short | .int => Opcode.ireturn

def MethodDesc.returnOp (m : MethodDesc) : Opcode := m.result.returnOp

end JvmPatch
