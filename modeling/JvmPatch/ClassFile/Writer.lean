import JvmPatch.Bytecode.Encode
import JvmPatch.ClassSet.Basic

/-! Writing class files. A class that is as it was read is written as it was read. A class that is
encoded anew gets a version that is verified without a table of stack maps. -/

set_option autoImplicit false

namespace JvmPatch

/-- The last version of class files that needs no table of stack maps. -/
def newestMajor : UInt16 := 50

namespace ClassWriter

def count (n : Nat) : EncodeM Bytes :=
  if n ≤ 65535 then pure (toBigEndian 2 n) else throw .tableTooLong

def attr (name : UInt16) (content : Bytes) : Bytes :=
  bytes16 name ++ toBigEndian 4 content.length ++ content

def field (f : FieldDecl) : EncodeM Bytes := do
  let name ← PoolBuilder.addText f.name
  let desc ← PoolBuilder.addText f.desc
  let start := bytes16 f.access ++ bytes16 name ++ bytes16 desc
  match f.value with
  | none => pure (start ++ bytes16 0)
  | some value =>
    let kind ← PoolBuilder.addText "ConstantValue"
    let index ← PoolBuilder.addConstant value
    pure (start ++ bytes16 1 ++ attr kind (bytes16 index))

/-- The bytes of an entry of the exception table. -/
def handler (h : Bytecode.Handler) : Bytes :=
  bytes16 h.start ++ bytes16 h.stop ++ bytes16 h.handler ++ bytes16 h.catchType

def lineEntry (e : Bytecode.LineEntry) : Bytes := bytes16 e.offset ++ bytes16 e.line

/-- Writes the attributes of a method body: the line table, unless it is empty. -/
def bodyAttributes (raw : Bytecode.RawCode) : EncodeM Bytes :=
  if raw.lines.isEmpty then pure (bytes16 0)
  else do
    let kind ← PoolBuilder.addText "LineNumberTable"
    let entries ← count raw.lines.length
    pure (bytes16 1 ++ attr kind (entries ++ raw.lines.flatMap lineEntry))

def body (code : Code) (desc : String) (isStatic : Bool) : EncodeM Bytes := do
  let type ← Bytecode.orFail ((MethodDesc.require desc).mapError .methodDesc)
  let raw ← Bytecode.encode code (type.parameterSlots isStatic)
  let handlers ← count raw.handlers.length
  let attributes ← bodyAttributes raw
  let kind ← PoolBuilder.addText "Code"
  pure (attr kind (bytes16 raw.maxStack ++ bytes16 raw.maxLocals ++
    toBigEndian 4 raw.bytes.length ++ raw.bytes ++ handlers ++ raw.handlers.flatMap handler ++
    attributes))

def bodyAttribute (m : MethodDecl) : EncodeM (List Bytes) :=
  match m.code with
  | none => pure []
  | some code => do pure [← body code m.desc m.isStatic]

def exceptionsAttribute (m : MethodDecl) : EncodeM (List Bytes) :=
  if m.exceptions.isEmpty then pure []
  else do
    let kind ← PoolBuilder.addText "Exceptions"
    let number ← count m.exceptions.length
    let classes ← m.exceptions.mapM PoolBuilder.addClass
    pure [attr kind (number ++ classes.flatMap bytes16)]

def method (m : MethodDecl) : EncodeM Bytes := do
  let name ← PoolBuilder.addText m.name
  let desc ← PoolBuilder.addText m.desc
  let code ← bodyAttribute m
  let exceptions ← exceptionsAttribute m
  let attributes := code ++ exceptions
  pure (bytes16 m.access ++ bytes16 name ++ bytes16 desc ++ toBigEndian 2 attributes.length ++
    attributes.flatten)

def namedMethod (m : MethodDecl) : EncodeM Bytes :=
  tryCatch (method m) fun e => throw (.inMethod m.name m.desc e)

/-- Writes the number of a class that need not be there. -/
def classOrZero : Option String → EncodeM Bytes
  | none => pure (bytes16 0)
  | some name => do pure (bytes16 (← PoolBuilder.addClass name))

def sourceFile : Option String → EncodeM Bytes
  | none => pure (bytes16 0)
  | some source => do
    let kind ← PoolBuilder.addText "SourceFile"
    let text ← PoolBuilder.addText source
    pure (bytes16 1 ++ attr kind (bytes16 text))

def afterPool (file : ClassFile) : EncodeM Bytes := do
  let header := file.header
  let name ← PoolBuilder.addClass header.name
  let superName ← classOrZero header.superName
  let interfaceCount ← count header.interfaces.length
  let interfaces ← header.interfaces.mapM PoolBuilder.addClass
  let fieldCount ← count file.fields.length
  let fields ← file.fields.mapM field
  let methodCount ← count file.methods.length
  let methods ← file.methods.mapM namedMethod
  let attributes ← sourceFile header.sourceFile
  pure (bytes16 header.access ++ bytes16 name ++ superName ++ interfaceCount ++
    interfaces.flatMap bytes16 ++ fieldCount ++ fields.flatten ++ methodCount ++
    methods.flatten ++ attributes)

/-- The version that a class is written with: major number, then minor number. -/
def version (header : ClassHeader) : UInt16 × UInt16 :=
  if newestMajor < header.major then (newestMajor, 0) else (header.major, header.minor)

end ClassWriter

def ClassFile.encode (file : ClassFile) : Except EncodeError Bytes :=
  match (ClassWriter.afterPool file).run {} with
  | .error e _ => .error e
  | .ok content pool => do
    let (major, minor) := ClassWriter.version file.header
    let pool ← pool.encode
    pure (toBigEndian 4 0xcafebabe ++ bytes16 minor ++ bytes16 major ++ pool ++ content)

namespace ClassSet

def classFile (set : ClassSet) (id : ClassId) : ClassFile :=
  let c := set.classAt id
  { header := c.toClassHeader
    fields := c.fields.map fun f => (set.fieldAt f).toFieldDecl
    methods := c.methods.map fun m => (set.methodAt m).toMethodDecl }

/-- The bytes of a class: those it was read from if it has not been modified. -/
def store (set : ClassSet) (id : ClassId) : Except EncodeError Bytes :=
  let c := set.classAt id
  let encoded := (set.classFile id).encode.mapError (.inClass c.name)
  if c.modified then encoded
  else
    match c.source with
    | some source => .ok source
    | none => encoded

end ClassSet

end JvmPatch
