import JvmPatch.Bytecode.Decode
import JvmPatch.ClassFile.PoolBuilder
import JvmPatch.Insn.StackDepth

/-! Encoding of method bodies. Each instruction takes its shortest form; branches are 16 bits wide.
First all operands get their numbers in the constant pool, then the labels get their offsets. -/

set_option autoImplicit false

namespace JvmPatch.Bytecode

/-- An instruction whose operands have their numbers; branches still go to labels. -/
inductive Piece
  | bytes (content : List UInt8)
  | branch (op : Opcode) (target : Label)
  | table (low high : Int32) (default : Label) (targets : List Label)
  | lookup (default : Label) (pairs : List (Int32 × Label))
  | label (l : Label)
  | line (number : UInt16)
  deriving DecidableEq, Repr

/-- The length of a piece that starts at an offset. -/
def Piece.length (offset : Nat) : Piece → Nat
  | .bytes content => content.length
  | .branch .. => 3
  | .table _ _ _ targets => 1 + padding offset + 12 + 4 * targets.length
  | .lookup _ pairs => 1 + padding offset + 8 + 8 * pairs.length
  | .label _ | .line _ => 0

def asByte? (n : UInt16) : Option UInt8 := if n ≤ 255 then some n.toUInt8 else none

/-- An instruction with a number of the constant pool. -/
def withIndex (op : Opcode) (index : UInt16) : List UInt8 := op :: bytes16 index

/-- The shortest form of an instruction that pushes an integer, unless it is a constant of the
pool. -/
def smallInt? (value : Int32) : Option (List UInt8) :=
  let n := value.toInt
  if -1 ≤ n ∧ n ≤ 5 then some [UInt8.ofNat (n + 3).toNat]
  else if -128 ≤ n ∧ n < 128 then some [Opcode.bipush, value.toUInt32.toUInt8]
  else if -32768 ≤ n ∧ n < 32768 then
    some (Opcode.sipush :: bytes16 value.toUInt32.toUInt16)
  else none

/-- The form of an instruction that pushes a constant without the pool, if there is one. -/
def smallConstant? : Constant → Option (List UInt8)
  | .int value => smallInt? value
  | .long value =>
    if value = 0 then some [Opcode.lconst0] else if value = 1 then some [Opcode.lconst1] else none
  | .float bits =>
    ((List.range 3).find? fun n => smallFloat n == bits).map fun n =>
      [Opcode.fconst0 + UInt8.ofNat n]
  | .double bits =>
    ((List.range 2).find? fun n => smallDouble n == bits).map fun n =>
      [Opcode.dconst0 + UInt8.ofNat n]
  | .string _ | .classRef _ => none

def encodePush (value : Constant) : EncodeM (List UInt8) :=
  match smallConstant? value with
  | some content => pure content
  | none => do
    let index ← PoolBuilder.addConstant value
    if value.isWide then pure (withIndex Opcode.ldc2W index)
    else
      match asByte? index with
      | some short => pure [Opcode.ldc, short]
      | none => pure (withIndex Opcode.ldcW index)

/-- Encodes an access to a local variable. -/
def encodeLocal (op : Opcode) (index : UInt16) : List UInt8 :=
  match asByte? index with
  | some short =>
    if short ≤ 3 ∧ Opcode.between Opcode.iload Opcode.aload op then
      [Opcode.iload0 + (op - Opcode.iload) * 4 + short]
    else if short ≤ 3 ∧ Opcode.between Opcode.istore Opcode.astore op then
      [Opcode.istore0 + (op - Opcode.istore) * 4 + short]
    else [op, short]
  | none => Opcode.wide :: withIndex op index

/-- Encodes an addition to a local variable. -/
def encodeIinc (index : UInt16) (delta : Int16) : List UInt8 :=
  let short := -128 ≤ delta.toInt ∧ delta.toInt < 128
  match asByte? index with
  | some i =>
    if short then [Opcode.iinc, i, delta.toUInt16.toUInt8]
    else Opcode.wide :: (withIndex Opcode.iinc index ++ bytes16 delta.toUInt16)
  | none => Opcode.wide :: (withIndex Opcode.iinc index ++ bytes16 delta.toUInt16)

/-- The bytes after the number of an interface method: the slots of a call, and a zero. -/
def interfaceSlots (desc : String) : Except EncodeError (List UInt8) := do
  let type ← (MethodDesc.require desc).mapError .methodDesc
  match asByte? (type.parameterSlots false) with
  | some slots => pure [slots, 0]
  | none => .error .interfaceArguments

/-- Gives the operands of an instruction their numbers in the constant pool. -/
def toPiece : Insn → EncodeM Piece
  | .label l => pure (.label l)
  | .line number => pure (.line number)
  | .jump op target => pure (.branch op target)
  | .tableSwitch low high default targets => pure (.table low high default targets)
  | .lookupSwitch default pairs => pure (.lookup default pairs)
  | .simple op => pure (.bytes [op])
  | .push value => do pure (.bytes (← encodePush value))
  | .var op index => pure (.bytes (encodeLocal op index))
  | .iinc index delta => pure (.bytes (encodeIinc index delta))
  | .field op owner name desc => do
    pure (.bytes (withIndex op (← PoolBuilder.addField owner name desc)))
  | .invoke op owner name desc isInterface => do
    let index ← PoolBuilder.addMethod owner name desc isInterface
    if op = Opcode.invokeinterface then
      match interfaceSlots desc with
      | .ok slots => pure (.bytes (withIndex op index ++ slots))
      | .error e => throw e
    else pure (.bytes (withIndex op index))
  | .type op className => do pure (.bytes (withIndex op (← PoolBuilder.addClass className)))
  | .newArray code => pure (.bytes [Opcode.newarray, code])
  | .multiNewArray desc dims => do
    pure (.bytes (withIndex Opcode.multianewarray (← PoolBuilder.addClass desc) ++ [dims]))
  | .foreign _ detail => throw (.foreign detail)

/-- Gives the operands of the instructions from a place on their numbers. -/
def toPieces : Nat → List Insn → EncodeM (List Piece)
  | _, [] => pure []
  | index, insn :: insns => do
    let piece ← tryCatch (toPiece insn) fun e => throw (.atInsn index e)
    let rest ← toPieces (index + 1) insns
    pure (piece :: rest)

def layout : Nat → List Piece → List (Nat × Piece)
  | _, [] => []
  | offset, piece :: pieces => (offset, piece) :: layout (offset + piece.length offset) pieces

def totalLength : Nat → List Piece → Nat
  | offset, [] => offset
  | offset, piece :: pieces => totalLength (offset + piece.length offset) pieces

/-- The offset of a label. If the label is placed twice, the later place counts. -/
def offsetOf (placed : List (Nat × Piece)) (label : Label) : Except EncodeError Nat :=
  match placed.reverse.find? fun p => p.2 == .label label with
  | some (offset, _) => .ok offset
  | none => .error (.unplaced label)

def distance (placed : List (Nat × Piece)) (offset : Nat) (label : Label) :
    Except EncodeError Int := do
  let target ← offsetOf placed label
  pure (Int.ofNat target - Int.ofNat offset)

/-- The distance from an offset to a label in four bytes. -/
def distance32 (placed : List (Nat × Piece)) (offset : Nat) (label : Label) :
    Except EncodeError (List UInt8) := do
  pure (bytes32 (Int32.ofInt (← distance placed offset label)).toUInt32)

def encodePiece (placed : List (Nat × Piece)) (offset : Nat) : Piece →
    Except EncodeError (List UInt8)
  | .bytes content => .ok content
  | .branch op target => do
    let delta ← distance placed offset target
    if -32768 ≤ delta ∧ delta < 32768 then pure (op :: bytes16 (Int16.ofInt delta).toUInt16)
    else .error (.branchTooFar delta)
  | .table low high default targets => do
    let default ← distance32 placed offset default
    let targets ← targets.mapM (distance32 placed offset)
    pure (Opcode.tableswitch :: (List.replicate (padding offset) 0 ++ default ++
      bytes32 low.toUInt32 ++ bytes32 high.toUInt32 ++ targets.flatten))
  | .lookup default pairs => do
    let default ← distance32 placed offset default
    let sorted := pairs.mergeSort fun a b => a.1 ≤ b.1
    let cases ← sorted.mapM fun p => do
      pure (bytes32 p.1.toUInt32 ++ (← distance32 placed offset p.2))
    pure (Opcode.lookupswitch :: (List.replicate (padding offset) 0 ++ default ++
      toBigEndian 4 pairs.length ++ cases.flatten))
  | .label _ | .line _ => .ok []

def lineEntry? : Nat × Piece → Option LineEntry
  | (offset, .line number) => some ⟨UInt16.ofNat offset, number⟩
  | _ => none

def encodeRegion (placed : List (Nat × Piece)) (r : Region) : EncodeM Handler := do
  let offset := fun (l : Label) =>
    match offsetOf placed l with
    | .ok n => (pure (UInt16.ofNat n) : EncodeM UInt16)
    | .error e => throw e
  let start ← offset r.start
  let stop ← offset r.stop
  let handler ← offset r.handler
  match r.catchType with
  | some name => do pure ⟨start, stop, handler, ← PoolBuilder.addClass name⟩
  | none => pure ⟨start, stop, handler, 0⟩

/-- The largest index after the local variables that an instruction uses. -/
def localsAfter? : Insn → Option UInt16
  | .var op index =>
    let wide := op = Opcode.lload ∨ op = Opcode.dload ∨ op = Opcode.lstore ∨ op = Opcode.dstore
    let width : UInt16 := if wide then 2 else 1
    some (if index.toNat + width.toNat ≤ 65535 then index + width else 65535)
  | .iinc index _ => some (if index < 65535 then index + 1 else 65535)
  | _ => none

/-- The number of local variables, given that of the parameters. -/
def countLocals (code : Code) (parameters : UInt16) : UInt16 :=
  (code.insns.filterMap localsAfter?).foldl max parameters

/-- Turns a failure into one of the encoder. -/
def orFail {α : Type} : Except EncodeError α → EncodeM α
  | .ok x => pure x
  | .error e => throw e

/-- Encodes a method body, given the slots of its parameters. -/
def encode (code : Code) (parameters : UInt16) : EncodeM RawCode := do
  let pieces ← toPieces 0 code.insns
  let maxStack ← orFail (code.stackDepth.mapError .stack)
  let placed := layout 0 pieces
  if totalLength 0 pieces < 65536 then
    let content ← orFail (placed.mapM fun p => encodePiece placed p.1 p.2)
    if code.regions.length ≤ 65535 then
      let handlers ← code.regions.mapM (encodeRegion placed)
      pure
        { maxStack := maxStack
          maxLocals := countLocals code parameters
          bytes := content.flatten
          handlers := handlers
          lines := placed.filterMap lineEntry? }
    else throw .tableTooLong
  else throw .bodyTooLong

end JvmPatch.Bytecode
