import JvmPatch.Bytecode.Length

/-! Cutting the bytes of a method into its instructions, and the offsets that each of them branches
to. The instructions cover the bytes without gap or overlap. -/

set_option autoImplicit false

namespace JvmPatch.Bytecode

/-- An encoded instruction and the offset at which it starts. -/
structure Tile where
  offset : Nat
  bytes : List UInt8
  deriving DecidableEq, Repr

def Tile.op (t : Tile) : Opcode := t.bytes.headD 0

/-- The offset that lies `delta` bytes from an instruction. -/
def Tile.target (t : Tile) (delta : Int) : Except BytecodeError Nat :=
  let place := Int.ofNat t.offset + delta
  if 0 ≤ place then .ok place.toNat else .error (.branchBeforeStart t.offset)

/-- The operands of a table switch: distances are relative to the instruction. -/
structure TableOperands where
  default : Int32
  low : Int32
  high : Int32
  jumps : List Int32
  deriving DecidableEq, Repr

def Tile.table (t : Tile) : Except BytecodeError TableOperands := do
  let base := 1 + padding t.offset
  let default ← i32At base t.bytes
  let low ← i32At (base + 4) t.bytes
  let high ← i32At (base + 8) t.bytes
  let count := (high.toInt - low.toInt + 1).toNat
  let jumps ← (List.range count).mapM fun i => i32At (base + 12 + 4 * i) t.bytes
  pure ⟨default, low, high, jumps⟩

/-- The operands of a lookup switch: keys with distances. -/
structure LookupOperands where
  default : Int32
  pairs : List (Int32 × Int32)
  deriving DecidableEq, Repr

def Tile.lookup (t : Tile) : Except BytecodeError LookupOperands := do
  let base := 1 + padding t.offset
  let default ← i32At base t.bytes
  let count ← i32At (base + 4) t.bytes
  let pairs ← (List.range count.toInt.toNat).mapM fun i => do
    let key ← i32At (base + 8 + 8 * i) t.bytes
    let jump ← i32At (base + 12 + 8 * i) t.bytes
    pure (key, jump)
  pure ⟨default, pairs⟩

/-- The offsets that an instruction can branch to, in the order of its operands. -/
def Tile.branches (t : Tile) : Except BytecodeError (List Nat) := do
  if t.op.isShortJump then
    let delta ← i16At 1 t.bytes
    pure [← t.target delta.toInt]
  else if t.op.isWideJump then
    let delta ← i32At 1 t.bytes
    pure [← t.target delta.toInt]
  else if t.op = Opcode.tableswitch then
    let operands ← t.table
    (operands.default :: operands.jumps).mapM fun delta => t.target delta.toInt
  else if t.op = Opcode.lookupswitch then
    let operands ← t.lookup
    (operands.default :: operands.pairs.map Prod.snd).mapM fun delta => t.target delta.toInt
  else pure []

/-- Cuts off at most `fuel` instructions, the first of which starts at `offset`. -/
def tilesFrom : Nat → Nat → List UInt8 → Except BytecodeError (List (Tile × List Nat))
  | _, _, [] => .ok []
  | 0, _, _ :: _ => .ok []
  | fuel + 1, offset, b :: s => do
    let n ← length offset (b :: s)
    let tile : Tile := ⟨offset, (b :: s).take n⟩
    if tile.bytes.length < n ∨ n = 0 then .error (.invalidLength offset)
    else
      let branches ← tile.branches
      let rest ← tilesFrom fuel (offset + n) ((b :: s).drop n)
      pure ((tile, branches) :: rest)

/-- The instructions of a method with the offsets that they branch to. Each takes at least one
byte, so their number is at most that of the bytes. -/
def tiles (code : List UInt8) : Except BytecodeError (List (Tile × List Nat)) :=
  tilesFrom code.length 0 code

end JvmPatch.Bytecode
