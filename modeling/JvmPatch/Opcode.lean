/-! The instruction codes of the JVM that other modules name. -/

set_option autoImplicit false

namespace JvmPatch

/-- The first byte of an encoded instruction. -/
abbrev Opcode := UInt8

namespace Opcode

abbrev nop : Opcode := 0x00
abbrev aconstNull : Opcode := 0x01
abbrev iconstM1 : Opcode := 0x02
abbrev iconst0 : Opcode := 0x03
abbrev iconst5 : Opcode := 0x08
abbrev lconst0 : Opcode := 0x09
abbrev lconst1 : Opcode := 0x0a
abbrev fconst0 : Opcode := 0x0b
abbrev fconst2 : Opcode := 0x0d
abbrev dconst0 : Opcode := 0x0e
abbrev dconst1 : Opcode := 0x0f
abbrev bipush : Opcode := 0x10
abbrev sipush : Opcode := 0x11
abbrev ldc : Opcode := 0x12
abbrev ldcW : Opcode := 0x13
abbrev ldc2W : Opcode := 0x14
abbrev iload : Opcode := 0x15
abbrev lload : Opcode := 0x16
abbrev fload : Opcode := 0x17
abbrev dload : Opcode := 0x18
abbrev aload : Opcode := 0x19
abbrev iload0 : Opcode := 0x1a
abbrev aload3 : Opcode := 0x2d
abbrev iaload : Opcode := 0x2e
abbrev laload : Opcode := 0x2f
abbrev faload : Opcode := 0x30
abbrev daload : Opcode := 0x31
abbrev aaload : Opcode := 0x32
abbrev baload : Opcode := 0x33
abbrev caload : Opcode := 0x34
abbrev saload : Opcode := 0x35
abbrev istore : Opcode := 0x36
abbrev lstore : Opcode := 0x37
abbrev fstore : Opcode := 0x38
abbrev dstore : Opcode := 0x39
abbrev astore : Opcode := 0x3a
abbrev istore0 : Opcode := 0x3b
abbrev astore3 : Opcode := 0x4e
abbrev iastore : Opcode := 0x4f
abbrev lastore : Opcode := 0x50
abbrev fastore : Opcode := 0x51
abbrev dastore : Opcode := 0x52
abbrev aastore : Opcode := 0x53
abbrev bastore : Opcode := 0x54
abbrev castore : Opcode := 0x55
abbrev sastore : Opcode := 0x56
abbrev pop : Opcode := 0x57
abbrev pop2 : Opcode := 0x58
abbrev dup : Opcode := 0x59
abbrev dupX1 : Opcode := 0x5a
abbrev dupX2 : Opcode := 0x5b
abbrev dup2 : Opcode := 0x5c
abbrev dup2X1 : Opcode := 0x5d
abbrev dup2X2 : Opcode := 0x5e
abbrev swap : Opcode := 0x5f
abbrev iadd : Opcode := 0x60
abbrev drem : Opcode := 0x73
abbrev ineg : Opcode := 0x74
abbrev lneg : Opcode := 0x75
abbrev fneg : Opcode := 0x76
abbrev dneg : Opcode := 0x77
abbrev ishl : Opcode := 0x78
abbrev lshl : Opcode := 0x79
abbrev ishr : Opcode := 0x7a
abbrev lshr : Opcode := 0x7b
abbrev iushr : Opcode := 0x7c
abbrev lushr : Opcode := 0x7d
abbrev iand : Opcode := 0x7e
abbrev land : Opcode := 0x7f
abbrev ior : Opcode := 0x80
abbrev lor : Opcode := 0x81
abbrev ixor : Opcode := 0x82
abbrev lxor : Opcode := 0x83
abbrev iinc : Opcode := 0x84
abbrev i2l : Opcode := 0x85
abbrev i2f : Opcode := 0x86
abbrev i2d : Opcode := 0x87
abbrev l2i : Opcode := 0x88
abbrev l2f : Opcode := 0x89
abbrev l2d : Opcode := 0x8a
abbrev f2i : Opcode := 0x8b
abbrev f2l : Opcode := 0x8c
abbrev f2d : Opcode := 0x8d
abbrev d2i : Opcode := 0x8e
abbrev d2l : Opcode := 0x8f
abbrev d2f : Opcode := 0x90
abbrev i2b : Opcode := 0x91
abbrev i2c : Opcode := 0x92
abbrev i2s : Opcode := 0x93
abbrev lcmp : Opcode := 0x94
abbrev fcmpl : Opcode := 0x95
abbrev fcmpg : Opcode := 0x96
abbrev dcmpl : Opcode := 0x97
abbrev dcmpg : Opcode := 0x98
abbrev ifeq : Opcode := 0x99
abbrev ifIcmpeq : Opcode := 0x9f
abbrev ifAcmpne : Opcode := 0xa6
abbrev goto : Opcode := 0xa7
abbrev jsr : Opcode := 0xa8
abbrev ret : Opcode := 0xa9
abbrev tableswitch : Opcode := 0xaa
abbrev lookupswitch : Opcode := 0xab
abbrev ireturn : Opcode := 0xac
abbrev lreturn : Opcode := 0xad
abbrev freturn : Opcode := 0xae
abbrev dreturn : Opcode := 0xaf
abbrev areturn : Opcode := 0xb0
abbrev voidReturn : Opcode := 0xb1
abbrev getstatic : Opcode := 0xb2
abbrev putstatic : Opcode := 0xb3
abbrev getfield : Opcode := 0xb4
abbrev putfield : Opcode := 0xb5
abbrev invokevirtual : Opcode := 0xb6
abbrev invokespecial : Opcode := 0xb7
abbrev invokestatic : Opcode := 0xb8
abbrev invokeinterface : Opcode := 0xb9
abbrev invokedynamic : Opcode := 0xba
abbrev new : Opcode := 0xbb
abbrev newarray : Opcode := 0xbc
abbrev anewarray : Opcode := 0xbd
abbrev arraylength : Opcode := 0xbe
abbrev athrow : Opcode := 0xbf
abbrev checkcast : Opcode := 0xc0
abbrev instanceof : Opcode := 0xc1
abbrev monitorenter : Opcode := 0xc2
abbrev monitorexit : Opcode := 0xc3
abbrev wide : Opcode := 0xc4
abbrev multianewarray : Opcode := 0xc5
abbrev ifnull : Opcode := 0xc6
abbrev ifnonnull : Opcode := 0xc7
abbrev gotoW : Opcode := 0xc8
abbrev jsrW : Opcode := 0xc9

/-- Whether a code lies between two others, ends included. -/
def between (low high op : Opcode) : Bool := low ≤ op && op ≤ high

def isReturn (op : Opcode) : Bool := between ireturn voidReturn op

/-- The instructions that jump by a 16-bit offset. -/
def isShortJump (op : Opcode) : Bool := between ifeq jsr op || op == ifnull || op == ifnonnull

/-- The instructions that jump by a 32-bit offset. -/
def isWideJump (op : Opcode) : Bool := op == gotoW || op == jsrW

/-- The loads and stores of local variables with an explicit index. -/
def isLoadOrStore (op : Opcode) : Bool := between iload aload op || between istore astore op

/-- The instructions without operands that a body may hold as they are. -/
def isPlain (op : Opcode) : Bool :=
  between nop aconstNull op || between iaload saload op || between iastore lxor op ||
    between i2l dcmpg op || isReturn op || op == arraylength || op == athrow ||
    op == monitorenter || op == monitorexit

/-- Two lower-case hexadecimal digits. -/
def hex (op : Opcode) : String :=
  String.ofList [Nat.digitChar (op.toNat / 16), Nat.digitChar (op.toNat % 16)]

end Opcode

end JvmPatch
