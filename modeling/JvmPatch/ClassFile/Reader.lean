import JvmPatch.ClassFile.Attribute
import JvmPatch.Text.ModifiedUtf8

/-! Reading class files. First the bytes are split as the layout of class files says, and every
byte has to be used; then the numbers of the constant pool are followed. -/

set_option autoImplicit false

namespace JvmPatch.ClassLayout

/-- A field or a method with the numbers of its name and descriptor. -/
structure RawMember where
  access : Access
  name : UInt16
  desc : UInt16
  attributes : List Attribute
  deriving DecidableEq, Repr

/-- A class file split into its parts. -/
structure RawClass where
  minor : UInt16
  major : UInt16
  pool : Pool
  access : Access
  thisClass : UInt16
  superClass : UInt16
  interfaces : List UInt16
  fields : List RawMember
  methods : List RawMember
  attributes : List Attribute
  deriving DecidableEq, Repr

def poolEntry : Reader PoolEntry := do
  match (← u8).toNat with
  | 1 =>
    let text ← bytes (← u16).toNat
    pure (.utf8 (String.ofList (Text.decodeModifiedUtf8 text)))
  | 3 => pure (.int (← u32).toInt32)
  | 4 => pure (.float (← u32))
  | 5 => pure (.long (← u64).toInt64)
  | 6 => pure (.double (← u64))
  | 7 => pure (.classRef (← u16))
  | 8 => pure (.string (← u16))
  | 9 => pure (.fieldRef (← u16) (← u16))
  | 10 => pure (.methodRef (← u16) (← u16))
  | 11 => pure (.interfaceMethodRef (← u16) (← u16))
  | 12 => pure (.nameAndType (← u16) (← u16))
  | 15 => pure (.methodHandle (← u8) (← u16))
  | 16 => pure (.methodType (← u16))
  | 17 => pure (.dynamic (← u16) (← u16))
  | 18 => pure (.invokeDynamic (← u16) (← u16))
  | 19 => pure (.module (← u16))
  | 20 => pure (.package (← u16))
  | _ => failure

/-- Reads the entries for so many numbers, after those that have been read. -/
def poolEntries : Nat → Pool → Reader Pool
  | 0, pool => pure pool
  | 1, pool => do pure (pool.push (some (← poolEntry)))
  | n + 2, pool => do
    let e ← poolEntry
    if e.width = 2 then poolEntries n ((pool.push (some e)).push none)
    else poolEntries (n + 1) (pool.push (some e))

/-- Reads a constant pool. Its count includes the number zero. -/
def pool : Reader Pool := do
  match (← u16).toNat with
  | 0 => pure #[]
  | n + 1 => poolEntries n #[none]

/-- Reads a field or a method. -/
def member (flags : Access) (p : Pool) (depth : Nat) : Reader RawMember := do
  pure ⟨(← u16) &&& flags, ← u16, ← u16, ← attributes p depth⟩

def rawClass (depth : Nat) : Reader RawClass := do
  if (← u32) ≠ 0xcafebabe then failure
  let minor ← u16
  let major ← u16
  let p ← pool
  let access ← u16
  let thisClass ← u16
  let superClass ← u16
  let interfaces ← counted u16
  let fields ← counted (member Access.fieldFlags p depth)
  let methods ← counted (member Access.methodFlags p depth)
  let attrs ← attributes p depth
  pure
    { minor := minor
      major := major
      pool := p
      access := access &&& Access.classFlags
      thisClass := thisClass
      superClass := superClass
      interfaces := interfaces
      fields := fields
      methods := methods
      attributes := attrs }

/-- Splits the bytes of a class file. Every table takes at least one byte, so the number of bytes
bounds how deep tables can be nested. -/
def split? (s : List UInt8) : Option RawClass :=
  match rawClass (s.length + 1) s with
  | some (c, []) => some c
  | _ => none

end JvmPatch.ClassLayout

namespace JvmPatch

open ClassLayout (Attribute RawClass RawMember)

/-- The result of the last step of a list, if it has one. -/
def lastResult {α β : Type} (f : α → Except ReadError (Option β)) (xs : List α) :
    Except ReadError (Option β) :=
  xs.foldlM
    (fun found x => do
      match ← f x with
      | some y => pure (some y)
      | none => pure found)
    none

/-- A field of a class file. Of several constant values the last one counts. -/
def FieldDecl.ofRaw (pool : Pool) (m : RawMember) : Except ReadError FieldDecl := do
  let name ← within .fieldName (pool.utf8 m.name)
  let desc ← within .fieldDesc (pool.utf8 m.desc)
  let value ← m.attributes |> lastResult fun a =>
    match a with
    | .constantValue index => do pure (some (← within (.constantValue name) (pool.constant index)))
    | _ => pure none
  pure ⟨name, desc, m.access, value⟩

/-- A method of a class file. Of several bodies the last one counts. -/
def MethodDecl.ofRaw (pool : Pool) (m : RawMember) : Except ReadError MethodDecl := do
  let name ← within .methodName (pool.utf8 m.name)
  let desc ← within .methodDesc (pool.utf8 m.desc)
  let parts ← m.attributes.mapM fun a =>
    match a with
    | .exceptions classes => do
      pure (← classes.mapM fun c => within .exception (pool.className c), none)
    | .code raw => do
      pure ([], some (← within (.body name desc) (Bytecode.decode pool raw)))
    | _ => pure ([], none)
  pure
    { name := name
      desc := desc
      access := m.access
      exceptions := parts.flatMap Prod.fst
      code := (parts.filterMap Prod.snd).getLast? }

def ClassHeader.ofRaw (c : RawClass) : Except ReadError ClassHeader := do
  let name ← within .className (c.pool.className c.thisClass)
  let superName ←
    if c.superClass = 0 then pure none
    else pure (some (← within .superName (c.pool.className c.superClass)))
  let interfaces ← c.interfaces.mapM fun i => within .interfaceName (c.pool.className i)
  let sourceFile ← c.attributes |> lastResult fun a =>
    match a with
    | .sourceFile index => do pure (some (← within .sourceFile (c.pool.utf8 index)))
    | _ => pure none
  pure ⟨name, superName, interfaces, c.access, c.major, c.minor, sourceFile⟩

def ClassFile.read (s : Bytes) : Except ReadError ClassFile := do
  match ClassLayout.split? s with
  | none => .error .malformed
  | some c =>
    let header ← ClassHeader.ofRaw c
    let fields ← c.fields.mapM (FieldDecl.ofRaw c.pool)
    let methods ← c.methods.mapM (MethodDecl.ofRaw c.pool)
    pure ⟨header, fields, methods⟩

end JvmPatch
