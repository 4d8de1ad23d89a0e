import JvmPatch.BigEndian
import JvmPatch.ClassFile.Pool
import JvmPatch.Decimal.Integer
import JvmPatch.Insn.Effect
import JvmPatch.Text.ModifiedUtf8

/-! Constant pools as they are built while a class is written. An entry that is asked for again
keeps its number. -/

set_option autoImplicit false

namespace JvmPatch

/-- Why a class cannot be written. -/
inductive EncodeError
  | poolOverflow
  | textTooLong
  | tableTooLong
  | foreign (detail : String)
  | methodDesc (cause : MalformedMethodDesc)
  | interfaceArguments
  | bodyTooLong
  | unplaced (label : Label)
  | branchTooFar (delta : Int)
  | stack (cause : StackError)
  | atInsn (index : Nat) (cause : EncodeError)
  | inMethod (name desc : String) (cause : EncodeError)
  | inClass (name : String) (cause : EncodeError)
  deriving DecidableEq, Repr

/-- The wording of an error, the outermost context first. -/
def EncodeError.message : EncodeError → String
  | .poolOverflow => "constant pool overflow"
  | .textTooLong => "string constant too long: " ++ Decimal.IntegerError.tooLarge.message
  | .tableTooLong =>
    "table has more than 65535 entries: " ++ Decimal.IntegerError.tooLarge.message
  | .foreign detail => "cannot re-encode " ++ detail
  | .methodDesc cause => cause.message
  | .interfaceArguments =>
    "too many interface arguments: " ++ Decimal.IntegerError.tooLarge.message
  | .bodyTooLong => "method body exceeds 65535 bytes"
  | .unplaced label => label.unplacedMessage
  | .branchTooFar delta =>
    s!"branch offset {delta} does not fit in 16 bits: " ++
      (Decimal.misfit delta 0x7fff).message
  | .stack cause => cause.message
  | .atInsn index cause => s!"instruction {index}: " ++ cause.message
  | .inMethod name desc cause => "encode method " ++ name ++ desc ++ ": " ++ cause.message
  | .inClass name cause => "encode " ++ name ++ ": " ++ cause.message

/-- A constant pool with the numbers of its entries. -/
structure PoolBuilder where
  slots : Array (PoolEntry × UInt16) := #[]
  /-- The number that the next entry gets. -/
  next : Nat := 1
  deriving DecidableEq, Repr

/-- Steps that add to a constant pool. A step that fails leaves what was added before it. -/
abbrev EncodeM := EStateM EncodeError PoolBuilder

namespace PoolBuilder

def find? (b : PoolBuilder) (entry : PoolEntry) : Option UInt16 :=
  (b.slots.find? fun s => s.1 == entry).map Prod.snd

/-- Adds an entry unless it is there, and gives its number. The last number stays free. -/
def add (entry : PoolEntry) : EncodeM UInt16 := do
  let b ← get
  match b.find? entry with
  | some index => pure index
  | none =>
    let next := b.next + entry.width
    if next < 65535 then
      let index := UInt16.ofNat b.next
      set (PoolBuilder.mk (b.slots.push (entry, index)) next)
      pure index
    else throw .poolOverflow

def addText (text : String) : EncodeM UInt16 := add (.utf8 text)

def addClass (name : String) : EncodeM UInt16 := do add (.classRef (← addText name))

def addNameAndType (name desc : String) : EncodeM UInt16 := do
  let name ← addText name
  let desc ← addText desc
  add (.nameAndType name desc)

def addField (owner name desc : String) : EncodeM UInt16 := do
  let owner ← addClass owner
  let nameAndType ← addNameAndType name desc
  add (.fieldRef owner nameAndType)

def addMethod (owner name desc : String) (isInterface : Bool) : EncodeM UInt16 := do
  let owner ← addClass owner
  let nameAndType ← addNameAndType name desc
  add (if isInterface then .interfaceMethodRef owner nameAndType else .methodRef owner nameAndType)

def addConstant : Constant → EncodeM UInt16
  | .int value => add (.int value)
  | .long value => add (.long value)
  | .float bits => add (.float bits)
  | .double bits => add (.double bits)
  | .string value => do add (.string (← addText value))
  | .classRef name => addClass name

end PoolBuilder

def PoolEntry.encode : PoolEntry → Except EncodeError Bytes
  | .utf8 text =>
    let content := Text.encodeModifiedUtf8 text.toList
    if content.length ≤ 65535 then .ok (1 :: (toBigEndian 2 content.length ++ content))
    else .error .textTooLong
  | .int value => .ok (3 :: bytes32 value.toUInt32)
  | .float bits => .ok (4 :: bytes32 bits)
  | .long value => .ok (5 :: bytes64 value.toUInt64)
  | .double bits => .ok (6 :: bytes64 bits)
  | .classRef name => .ok (7 :: bytes16 name)
  | .string text => .ok (8 :: bytes16 text)
  | .fieldRef owner pair => .ok (9 :: (bytes16 owner ++ bytes16 pair))
  | .methodRef owner pair => .ok (10 :: (bytes16 owner ++ bytes16 pair))
  | .interfaceMethodRef owner pair => .ok (11 :: (bytes16 owner ++ bytes16 pair))
  | .nameAndType name desc => .ok (12 :: (bytes16 name ++ bytes16 desc))
  | .methodHandle kind target => .ok (15 :: kind :: bytes16 target)
  | .methodType desc => .ok (16 :: bytes16 desc)
  | .dynamic bootstrap pair => .ok (17 :: (bytes16 bootstrap ++ bytes16 pair))
  | .invokeDynamic bootstrap pair => .ok (18 :: (bytes16 bootstrap ++ bytes16 pair))
  | .module name => .ok (19 :: bytes16 name)
  | .package name => .ok (20 :: bytes16 name)

/-- The bytes of a constant pool: the number after the last one, and the entries. -/
def PoolBuilder.encode (b : PoolBuilder) : Except EncodeError Bytes := do
  let entries ← b.slots.toList.mapM fun s => s.1.encode
  pure (toBigEndian 2 b.next ++ entries.flatten)

end JvmPatch
