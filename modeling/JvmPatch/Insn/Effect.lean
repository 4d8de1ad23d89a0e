import JvmPatch.Descriptor.Parser
import JvmPatch.Insn.Basic

/-! What an instruction takes off the operand stack and puts on it, and where control goes. -/

set_option autoImplicit false

namespace JvmPatch

/-- Slots taken off the stack, and slots put on it after that. -/
structure StackEffect where
  pop : UInt16 := 0
  push : UInt16 := 0
  deriving DecidableEq, Repr

/-- Where control goes from an instruction. -/
inductive Flow
  /-- To the next instruction. -/
  | next
  /-- To a target or to the next instruction. -/
  | branch
  /-- To a target. -/
  | jump
  /-- Out of the method or of a subroutine. -/
  | exit
  deriving DecidableEq, Repr

/-- Whether control can go to the next instruction. -/
def Flow.fallsThrough (f : Flow) : Bool := f == .next || f == .branch

/-- Why the depth of the operand stack cannot be worked out. -/
inductive StackError
  | noEffect (op : Opcode)
  | localOpcode (op : Opcode)
  | foreign (detail : String)
  | fieldDesc (cause : DescriptorError)
  | methodDesc (cause : MalformedMethodDesc)
  | unplaced (label : Label)
  /-- Two paths reach an instruction with different depths. -/
  | inconsistent (index : Nat) (first second : UInt16)
  | underflow (index : Nat)
  | overflow
  deriving DecidableEq, Repr

def Label.unplacedMessage (l : Label) : String := s!"label {l.index} is never placed"

def StackError.message : StackError → String
  | .noEffect op => "no stack effect for opcode 0x" ++ op.hex
  | .localOpcode op => "unexpected local variable opcode 0x" ++ op.hex
  | .foreign detail => "no stack effect for " ++ detail
  | .fieldDesc cause => cause.message
  | .methodDesc cause => cause.message
  | .unplaced label => label.unplacedMessage
  | .inconsistent index first second =>
    s!"inconsistent stack height at instruction {index}: {first.toNat} and {second.toNat}"
  | .underflow index => s!"stack underflow at instruction {index}"
  | .overflow => "stack overflow"

namespace Opcode

/-- The effect of an arithmetic instruction whose operands and result have one type: every other
code is for a type that takes two slots. -/
def arithmeticEffect (op : Opcode) : StackEffect :=
  if (op - iadd) % 2 = 1 then ⟨4, 2⟩ else ⟨2, 1⟩

/-- The effect of an instruction without operands. -/
def effect? (op : Opcode) : Option StackEffect :=
  if op = nop then some ⟨0, 0⟩
  else if op = aconstNull then some ⟨0, 1⟩
  else if op = laload ∨ op = daload then some ⟨2, 2⟩
  else if between iaload saload op then some ⟨2, 1⟩
  else if op = lastore ∨ op = dastore then some ⟨4, 0⟩
  else if between iastore sastore op then some ⟨3, 0⟩
  else if op = pop then some ⟨1, 0⟩
  else if op = pop2 then some ⟨2, 0⟩
  else if op = dup then some ⟨1, 2⟩
  else if op = dupX1 then some ⟨2, 3⟩
  else if op = dupX2 then some ⟨3, 4⟩
  else if op = dup2 then some ⟨2, 4⟩
  else if op = dup2X1 then some ⟨3, 5⟩
  else if op = dup2X2 then some ⟨4, 6⟩
  else if op = swap then some ⟨2, 2⟩
  else if between iadd drem op then some op.arithmeticEffect
  else if op = lneg ∨ op = dneg then some ⟨2, 2⟩
  else if op = ineg ∨ op = fneg then some ⟨1, 1⟩
  else if op = lshl ∨ op = lshr ∨ op = lushr then some ⟨3, 2⟩
  else if op = ishl ∨ op = ishr ∨ op = iushr then some ⟨2, 1⟩
  else if op = land ∨ op = lor ∨ op = lxor then some ⟨4, 2⟩
  else if op = iand ∨ op = ior ∨ op = ixor then some ⟨2, 1⟩
  else if op = i2l ∨ op = i2d ∨ op = f2l ∨ op = f2d then some ⟨1, 2⟩
  else if op = l2i ∨ op = l2f ∨ op = d2i ∨ op = d2f then some ⟨2, 1⟩
  else if op = l2d ∨ op = d2l then some ⟨2, 2⟩
  else if op = i2f ∨ op = f2i ∨ op = i2b ∨ op = i2c ∨ op = i2s then some ⟨1, 1⟩
  else if op = lcmp ∨ op = dcmpl ∨ op = dcmpg then some ⟨4, 1⟩
  else if op = fcmpl ∨ op = fcmpg then some ⟨2, 1⟩
  else if op = lreturn ∨ op = dreturn then some ⟨2, 0⟩
  else if op = ireturn ∨ op = freturn ∨ op = areturn then some ⟨1, 0⟩
  else if op = voidReturn then some ⟨0, 0⟩
  else if op = arraylength then some ⟨1, 1⟩
  else if op = athrow ∨ op = monitorenter ∨ op = monitorexit then some ⟨1, 0⟩
  else none

/-- The effect of a load or a store of a local variable, and of the return from a subroutine. -/
def localEffect? (op : Opcode) : Option StackEffect :=
  if op = lload ∨ op = dload then some ⟨0, 2⟩
  else if op = iload ∨ op = fload ∨ op = aload then some ⟨0, 1⟩
  else if op = lstore ∨ op = dstore then some ⟨2, 0⟩
  else if op = istore ∨ op = fstore ∨ op = astore then some ⟨1, 0⟩
  else if op = ret then some ⟨0, 0⟩
  else none

/-- The effect of an access to a field whose values take `slots` slots. -/
def fieldEffect (op : Opcode) (slots : UInt16) : StackEffect :=
  if op = getstatic then ⟨0, slots⟩
  else if op = putstatic then ⟨slots, 0⟩
  else if op = getfield then ⟨1, slots⟩
  else ⟨1 + slots, 0⟩

def jumpEffect (op : Opcode) : StackEffect :=
  if op = goto then ⟨0, 0⟩
  else if op = jsr then ⟨0, 1⟩
  else if between ifIcmpeq ifAcmpne op then ⟨2, 0⟩
  else ⟨1, 0⟩

end Opcode

namespace Insn

/-- The effect of an instruction on the operand stack. -/
def stackEffect : Insn → Except StackError StackEffect
  | .label _ | .line _ | .iinc .. => .ok {}
  | .simple op =>
    match op.effect? with
    | some effect => .ok effect
    | none => .error (.noEffect op)
  | .push value => .ok ⟨0, if value.isWide then 2 else 1⟩
  | .var op _ =>
    match op.localEffect? with
    | some effect => .ok effect
    | none => .error (.localOpcode op)
  | .field op _ _ desc =>
    match TypeDesc.parse desc with
    | .ok ty => .ok (op.fieldEffect ty.slots)
    | .error e => .error (.fieldDesc e)
  | .invoke op _ _ desc _ =>
    match MethodDesc.require desc with
    | .ok ty => .ok ⟨ty.argumentSlots (op == Opcode.invokestatic), ty.result.slots⟩
    | .error e => .error (.methodDesc e)
  | .type op _ => .ok (if op = Opcode.new then ⟨0, 1⟩ else ⟨1, 1⟩)
  | .newArray _ => .ok ⟨1, 1⟩
  | .multiNewArray _ dims => .ok ⟨dims.toUInt16, 1⟩
  | .jump op _ => .ok op.jumpEffect
  | .tableSwitch .. | .lookupSwitch .. => .ok ⟨1, 0⟩
  | .foreign _ detail => .error (.foreign detail)

/-- Where control goes from an instruction. -/
def flow : Insn → Flow
  | .jump op _ => if op = Opcode.goto then .jump else .branch
  | .tableSwitch .. | .lookupSwitch .. => .jump
  | .simple op => if op.isReturn ∨ op = Opcode.athrow then .exit else .next
  | .var op _ => if op = Opcode.ret then .exit else .next
  | _ => .next

end Insn

end JvmPatch
