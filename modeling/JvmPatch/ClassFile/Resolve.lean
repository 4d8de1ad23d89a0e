import JvmPatch.Bytecode.Error
import JvmPatch.ClassFile.Pool

/-! Following the numbers of a constant pool to names, constants and members. -/

set_option autoImplicit false

namespace JvmPatch

/-- What was being read when an error arose. -/
inductive ReadContext
  | className
  | superName
  | interfaceName
  | sourceFile
  | fieldName
  | fieldDesc
  | constantValue (field : String)
  | methodName
  | methodDesc
  | exception
  | body (method desc : String)
  | catchType
  | fieldRef
  | methodRef
  | typeOperand
  | arrayType
  | owner
  | memberName
  | memberDesc
  deriving DecidableEq, Repr

def ReadContext.text : ReadContext → String
  | .className => "resolve class name"
  | .superName => "resolve super class name"
  | .interfaceName => "resolve interface name"
  | .sourceFile => "resolve source file"
  | .fieldName => "resolve field name"
  | .fieldDesc => "resolve field descriptor"
  | .constantValue field => "resolve constant value of " ++ field
  | .methodName => "resolve method name"
  | .methodDesc => "resolve method descriptor"
  | .exception => "resolve thrown exception"
  | .body method desc => "decode bytecode of " ++ method ++ desc
  | .catchType => "resolve catch type"
  | .fieldRef => "resolve field ref"
  | .methodRef => "resolve method ref"
  | .typeOperand => "resolve type operand"
  | .arrayType => "resolve array type"
  | .owner => "resolve owner"
  | .memberName => "resolve member name"
  | .memberDesc => "resolve member descriptor"

/-- Why bytes are not a class file that can be used. -/
inductive ReadError
  /-- The bytes do not follow the layout of class files. -/
  | malformed
  /-- A number is not in the pool. -/
  | missing (role : PoolRole)
  /-- A number names an entry of another kind, or none. -/
  | unexpected (role : PoolRole)
  | bytecode (cause : BytecodeError)
  | within (context : ReadContext) (cause : ReadError)
  deriving DecidableEq, Repr

/-- The wording of an error, the outermost context first. -/
def ReadError.message : ReadError → String
  | .malformed => "failed to parse class file bytes"
  | .missing role => "missing " ++ role.text
  | .unexpected role => "unexpected " ++ role.text
  | .bytecode cause => cause.message
  | .within context cause => context.text ++ ": " ++ cause.message

/-- Adds a context to an error. -/
def within {α : Type} (context : ReadContext) (r : Except ReadError α) : Except ReadError α :=
  r.mapError (.within context)

namespace Pool

/-- The entry with a number, for a given role. -/
def entry (pool : Pool) (role : PoolRole) (index : UInt16) : Except ReadError (Option PoolEntry) :=
  match pool[index.toNat]? with
  | some slot => .ok slot
  | none => .error (.missing role)

def utf8 (pool : Pool) (index : UInt16) : Except ReadError String := do
  match ← pool.entry .utf8 index with
  | some (.utf8 text) => pure text
  | _ => .error (.unexpected .utf8)

def className (pool : Pool) (index : UInt16) : Except ReadError String := do
  match ← pool.entry .classRef index with
  | some (.classRef name) => pool.utf8 name
  | _ => .error (.unexpected .classRef)

/-- The constant with a number, as a field can hold it. -/
def constant (pool : Pool) (index : UInt16) : Except ReadError Constant := do
  match ← pool.entry .constant index with
  | some (.int value) => pure (.int value)
  | some (.float bits) => pure (.float bits)
  | some (.long value) => pure (.long value)
  | some (.double bits) => pure (.double bits)
  | some (.string text) => pure (.string (← pool.utf8 text))
  | _ => .error (.unexpected .constant)

def nameAndType (pool : Pool) (index : UInt16) : Except ReadError (String × String) := do
  match ← pool.entry .nameAndType index with
  | some (.nameAndType name desc) =>
    let name ← within .memberName (pool.utf8 name)
    let desc ← within .memberDesc (pool.utf8 desc)
    pure (name, desc)
  | _ => .error (.unexpected .nameAndType)

/-- A field or a method that code refers to. -/
structure Member where
  owner : String
  name : String
  desc : String
  isInterface : Bool
  deriving DecidableEq, Repr

def member (pool : Pool) (index : UInt16) : Except ReadError Member := do
  let (owner, nameAndType, isInterface) ←
    match ← pool.entry .memberRef index with
    | some (.fieldRef owner nameAndType) => pure (owner, nameAndType, false)
    | some (.methodRef owner nameAndType) => pure (owner, nameAndType, false)
    | some (.interfaceMethodRef owner nameAndType) => pure (owner, nameAndType, true)
    | _ => .error (.unexpected .memberRef)
  let owner ← within .owner (pool.className owner)
  let (name, desc) ← pool.nameAndType nameAndType
  pure ⟨owner, name, desc, isInterface⟩

/-- The instruction that pushes the constant with a number. Constants that are computed when they
are first used cannot be written again. -/
def pushed (pool : Pool) (index : UInt16) : Except ReadError Insn := do
  match ← pool.entry .pushable index with
  | some (.int _) | some (.float _) | some (.long _) | some (.double _) | some (.string _) =>
    pure (.push (← pool.constant index))
  | some (.classRef name) => pure (.push (.classRef (← pool.utf8 name)))
  | some (.methodType desc) =>
    pure (.foreign Opcode.ldc ("ldc method type " ++ (← pool.utf8 desc)))
  | some (.methodHandle kind _) =>
    pure (.foreign Opcode.ldc ("ldc method handle kind " ++ toString kind.toNat))
  | some (.dynamic _ nameAndType) =>
    let (name, desc) ← pool.nameAndType nameAndType
    pure (.foreign Opcode.ldc ("ldc dynamic " ++ name ++ " " ++ desc))
  | _ => .error (.unexpected .pushable)

/-- The instruction that calls the dynamically linked method with a number. -/
def dynamicCall (pool : Pool) (index : UInt16) : Except ReadError Insn := do
  match pool[index.toNat]? with
  | some (some (.invokeDynamic _ nameAndType)) =>
    let (name, desc) ← pool.nameAndType nameAndType
    pure (.foreign Opcode.invokedynamic ("invokedynamic " ++ name ++ " " ++ desc))
  | _ => .error (.unexpected .invokeDynamic)

end Pool

end JvmPatch
