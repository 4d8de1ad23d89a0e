import JvmPatch.BigEndian
import JvmPatch.Bytecode.Error

/-! The number of bytes of an encoded instruction. All but the switches and the `wide` form have a
length that their code decides. The operands of a switch start at a multiple of four. -/

set_option autoImplicit false

namespace JvmPatch.Bytecode

/-- The unsigned number in the `count` bytes at a place. -/
def natAt (count place : Nat) (s : List UInt8) : Except BytecodeError Nat :=
  let field := (s.drop place).take count
  if field.length = count then .ok (bigEndian field) else .error (.outOfBounds (8 * count))

def u8At (place : Nat) (s : List UInt8) : Except BytecodeError UInt8 :=
  (natAt 1 place s).map UInt8.ofNat

/-- The unsigned 16-bit number at a place. -/
def u16At (place : Nat) (s : List UInt8) : Except BytecodeError UInt16 :=
  (natAt 2 place s).map UInt16.ofNat

/-- The signed 16-bit number at a place. -/
def i16At (place : Nat) (s : List UInt8) : Except BytecodeError Int16 :=
  (u16At place s).map UInt16.toInt16

/-- The signed 32-bit number at a place. -/
def i32At (place : Nat) (s : List UInt8) : Except BytecodeError Int32 :=
  (natAt 4 place s).map fun n => (UInt32.ofNat n).toInt32

/-- The bytes between the code of a switch at an offset and its operands. -/
def padding (offset : Nat) : Nat := (4 - (offset + 1) % 4) % 4

/-- The length of the table switch that starts at an offset. -/
def tableLength (offset : Nat) (s : List UInt8) : Except BytecodeError Nat := do
  let base := 1 + padding offset
  let low ← i32At (base + 4) s
  let high ← i32At (base + 8) s
  let count := high.toInt - low.toInt + 1
  if 0 ≤ count ∧ count ≤ 0x7fffffff then .ok (base + 12 + 4 * count.toNat) else .error .tableRange

/-- The length of the lookup switch that starts at an offset. -/
def lookupLength (offset : Nat) (s : List UInt8) : Except BytecodeError Nat := do
  let base := 1 + padding offset
  let pairs ← i32At (base + 4) s
  if 0 ≤ pairs.toInt then .ok (base + 8 + 8 * pairs.toInt.toNat) else .error .lookupCount

def wideLength (s : List UInt8) : Except BytecodeError Nat :=
  match s[1]? with
  | some op => .ok (if op = Opcode.iinc then 6 else 4)
  | none => .error .missingWideOpcode

/-- The length of an instruction that its code alone decides. -/
def fixedLength? (op : Opcode) : Option Nat :=
  if op ≤ 0x0f then some 1
  else if op = 0x10 then some 2
  else if op = 0x11 then some 3
  else if op = 0x12 then some 2
  else if op ≤ 0x14 then some 3
  else if op ≤ 0x19 then some 2
  else if op ≤ 0x35 then some 1
  else if op ≤ 0x3a then some 2
  else if op ≤ 0x83 then some 1
  else if op = 0x84 then some 3
  else if op ≤ 0x98 then some 1
  else if op ≤ 0xa8 then some 3
  else if op = 0xa9 then some 2
  else if op ≤ 0xab then none
  else if op ≤ 0xb1 then some 1
  else if op ≤ 0xb8 then some 3
  else if op ≤ 0xba then some 5
  else if op = 0xbb then some 3
  else if op = 0xbc then some 2
  else if op = 0xbd then some 3
  else if op ≤ 0xbf then some 1
  else if op ≤ 0xc1 then some 3
  else if op ≤ 0xc3 then some 1
  else if op = 0xc4 then none
  else if op = 0xc5 then some 4
  else if op ≤ 0xc7 then some 3
  else if op ≤ 0xc9 then some 5
  else none

/-- The length of the instruction at the start of `s`, which stands at an offset in its method. -/
def length (offset : Nat) (s : List UInt8) : Except BytecodeError Nat :=
  match s with
  | [] => .error (.outOfBounds 8)
  | op :: _ =>
    match fixedLength? op with
    | some n => .ok n
    | none =>
      if op = Opcode.tableswitch then tableLength offset s
      else if op = Opcode.lookupswitch then lookupLength offset s
      else if op = Opcode.wide then wideLength s
      else .error (.unsupportedOpcode op)

end JvmPatch.Bytecode
