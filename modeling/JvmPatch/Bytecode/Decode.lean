import JvmPatch.Bytecode.Tiling
import JvmPatch.ClassFile.Resolve

/-! Decoding the bytes of a method. A label stands before every instruction that is branched to or
that bounds an exception region, and at the end if something refers to it; the labels are numbered
by their offsets. Line markers stand before the first instruction of their line. -/

set_option autoImplicit false

namespace JvmPatch.Bytecode

/-- An entry of the exception table, with offsets. -/
structure Handler where
  start : UInt16
  stop : UInt16
  handler : UInt16
  catchType : UInt16
  deriving DecidableEq, Repr

/-- An entry of the line table: a source line starts at an offset. -/
structure LineEntry where
  offset : UInt16
  line : UInt16
  deriving DecidableEq, Repr

/-- The encoded body of a method. -/
structure RawCode where
  maxStack : UInt16
  maxLocals : UInt16
  bytes : List UInt8
  handlers : List Handler
  lines : List LineEntry
  deriving DecidableEq, Repr

/-- The offsets in ascending order, each once. -/
def sortOffsets (offsets : List Nat) : List Nat :=
  (offsets.mergeSort (· ≤ ·)).eraseReps

def labelAt (targets : List Nat) (offset : Nat) : Except BytecodeError Label :=
  match targets.idxOf? offset with
  | some i => .ok ⟨i⟩
  | none => .error (.notABoundary offset)

/-- The bits of a small single precision number. -/
def smallFloat (n : Nat) : UInt32 :=
  if n = 0 then 0 else if n = 1 then 0x3f800000 else 0x40000000

/-- The bits of a small double precision number. -/
def smallDouble (n : Nat) : UInt64 := if n = 0 then 0 else 0x3ff0000000000000

/-- Decodes an instruction whose operands are in its own bytes. -/
def decodeOwn? (t : Tile) : Option (Except BytecodeError Insn) :=
  let op := t.op
  if Opcode.between Opcode.iconstM1 Opcode.iconst5 op then
    some (.ok (.push (.int (Int32.ofInt (Int.ofNat op.toNat - 3)))))
  else if Opcode.between Opcode.lconst0 Opcode.lconst1 op then
    some (.ok (.push (.long (Int64.ofInt (Int.ofNat (op - Opcode.lconst0).toNat)))))
  else if Opcode.between Opcode.fconst0 Opcode.fconst2 op then
    some (.ok (.push (.float (smallFloat (op - Opcode.fconst0).toNat))))
  else if Opcode.between Opcode.dconst0 Opcode.dconst1 op then
    some (.ok (.push (.double (smallDouble (op - Opcode.dconst0).toNat))))
  else if op = Opcode.bipush then
    some ((u8At 1 t.bytes).map fun b => .push (.int b.toInt8.toInt32))
  else if op = Opcode.sipush then
    some ((i16At 1 t.bytes).map fun n => .push (.int n.toInt32))
  else if op.isLoadOrStore || op = Opcode.ret then
    some ((u8At 1 t.bytes).map fun b => .var op b.toUInt16)
  else if Opcode.between Opcode.iload0 Opcode.aload3 op then
    let n := op - Opcode.iload0
    some (.ok (.var (Opcode.iload + n / 4) (n % 4).toUInt16))
  else if Opcode.between Opcode.istore0 Opcode.astore3 op then
    let n := op - Opcode.istore0
    some (.ok (.var (Opcode.istore + n / 4) (n % 4).toUInt16))
  else if op = Opcode.iinc then
    some do
      let index ← u8At 1 t.bytes
      let delta ← u8At 2 t.bytes
      pure (.iinc index.toUInt16 delta.toInt8.toInt16)
  else if op = Opcode.wide then
    some do
      let inner ← u8At 1 t.bytes
      let index ← u16At 2 t.bytes
      if inner = Opcode.iinc then pure (.iinc index (← i16At 4 t.bytes))
      else pure (.var inner index)
  else if op = Opcode.newarray then some ((u8At 1 t.bytes).map .newArray)
  else if op.isPlain then some (.ok (.simple op))
  else none

/-- Decodes an instruction that branches to labels. -/
def decodeBranch? (targets : List Nat) (t : Tile) : Option (Except BytecodeError Insn) :=
  let label := fun (delta : Int) => do labelAt targets (← t.target delta)
  let op := t.op
  if op.isShortJump then
    some do pure (.jump op (← label (← i16At 1 t.bytes).toInt))
  else if op.isWideJump then
    some do
      pure (.jump (if op = Opcode.gotoW then Opcode.goto else Opcode.jsr)
        (← label (← i32At 1 t.bytes).toInt))
  else if op = Opcode.tableswitch then
    some do
      let operands ← t.table
      let default ← label operands.default.toInt
      let jumps ← operands.jumps.mapM fun delta => label delta.toInt
      pure (.tableSwitch operands.low operands.high default jumps)
  else if op = Opcode.lookupswitch then
    some do
      let operands ← t.lookup
      let default ← label operands.default.toInt
      let pairs ← operands.pairs.mapM fun p => do pure (p.1, ← label p.2.toInt)
      pure (.lookupSwitch default pairs)
  else none

/-- The number of the pool at a place of an instruction. -/
def poolIndex (place : Nat) (t : Tile) : Except ReadError UInt16 :=
  (u16At place t.bytes).mapError .bytecode

/-- Decodes an instruction that refers to the constant pool. -/
def decodePooled (pool : Pool) (t : Tile) : Except ReadError Insn := do
  let op := t.op
  if op = Opcode.ldc then
    pool.pushed (← (u8At 1 t.bytes).mapError .bytecode).toUInt16
  else if op = Opcode.ldcW ∨ op = Opcode.ldc2W then pool.pushed (← poolIndex 1 t)
  else if Opcode.between Opcode.getstatic Opcode.putfield op then
    let m ← within .fieldRef (pool.member (← poolIndex 1 t))
    pure (.field op m.owner m.name m.desc)
  else if Opcode.between Opcode.invokevirtual Opcode.invokeinterface op then
    let m ← within .methodRef (pool.member (← poolIndex 1 t))
    pure (.invoke op m.owner m.name m.desc m.isInterface)
  else if op = Opcode.invokedynamic then pool.dynamicCall (← poolIndex 1 t)
  else if op = Opcode.new ∨ op = Opcode.anewarray ∨ op = Opcode.checkcast ∨
      op = Opcode.instanceof then
    pure (.type op (← within .typeOperand (pool.className (← poolIndex 1 t))))
  else if op = Opcode.multianewarray then
    let desc ← within .arrayType (pool.className (← poolIndex 1 t))
    pure (.multiNewArray desc (← (u8At 3 t.bytes).mapError .bytecode))
  else .error (.bytecode (.unsupportedOpcode op))

def decodeInsn (pool : Pool) (targets : List Nat) (t : Tile) : Except ReadError Insn :=
  match decodeOwn? t with
  | some r => r.mapError .bytecode
  | none =>
    match decodeBranch? targets t with
    | some r => r.mapError .bytecode
    | none => decodePooled pool t

/-- The label marker at an offset, if something refers to the offset. -/
def labelMarker (targets : List Nat) (offset : Nat) : List Insn :=
  match targets.idxOf? offset with
  | some i => [.label ⟨i⟩]
  | none => []

/-- The line markers at an offset, in the order of the line table. -/
def lineMarkers (lines : List LineEntry) (offset : Nat) : List Insn :=
  (lines.filter fun e => e.offset.toNat == offset).map fun e => .line e.line

/-- Decodes an entry of the exception table. -/
def decodeHandler (pool : Pool) (targets : List Nat) (h : Handler) : Except ReadError Region := do
  let catchType ←
    if h.catchType = 0 then pure none
    else pure (some (← within .catchType (pool.className h.catchType)))
  let label := fun (offset : UInt16) => (labelAt targets offset.toNat).mapError ReadError.bytecode
  pure ⟨← label h.start, ← label h.stop, ← label h.handler, catchType⟩

/-- The offsets that an entry of the exception table refers to. -/
def Handler.offsets (h : Handler) : List Nat := [h.start.toNat, h.stop.toNat, h.handler.toNat]

/-- Decodes the body of a method. -/
def decode (pool : Pool) (raw : RawCode) : Except ReadError Code := do
  let tiled ← (tiles raw.bytes).mapError .bytecode
  let targets := sortOffsets (tiled.flatMap Prod.snd ++ raw.handlers.flatMap Handler.offsets)
  let boundaries := raw.bytes.length :: tiled.map fun t => t.1.offset
  match targets.find? fun t => !boundaries.contains t with
  | some target => .error (.bytecode (.notABoundary target))
  | none =>
    let insns ← tiled.mapM fun t => do
      let insn ← decodeInsn pool targets t.1
      pure (labelMarker targets t.1.offset ++ lineMarkers raw.lines t.1.offset ++ [insn])
    let regions ← raw.handlers.mapM (decodeHandler pool targets)
    pure
      { maxStack := raw.maxStack
        maxLocals := raw.maxLocals
        insns := insns.flatten ++ labelMarker targets raw.bytes.length
        regions := regions
        nextLabel := targets.length }

end JvmPatch.Bytecode
