import JvmPatch.Bytecode.Decode

/-! The attributes of class files. The content of an attribute decides how many bytes it takes, so
every kind of the standard is read in full, although few of them are kept. A kind that is not known
makes the file unreadable. -/

set_option autoImplicit false

namespace JvmPatch.ClassLayout

open JvmPatch.Bytecode (Handler LineEntry RawCode)

/-- Reads the start of a list of bytes, and leaves the rest. -/
abbrev Reader := StateT (List UInt8) Option

def bytes (count : Nat) : Reader (List UInt8) := fun s =>
  let field := s.take count
  if field.length = count then some (field, s.drop count) else none

/-- Reads an unsigned number of a number of bytes. -/
def nat (count : Nat) : Reader Nat := do pure (bigEndian (← bytes count))

def u8 : Reader UInt8 := do pure (UInt8.ofNat (← nat 1))

/-- Reads an unsigned 16-bit number. -/
def u16 : Reader UInt16 := do pure (UInt16.ofNat (← nat 2))

/-- Reads an unsigned 32-bit number. -/
def u32 : Reader UInt32 := do pure (UInt32.ofNat (← nat 4))

/-- Reads an unsigned 64-bit number. -/
def u64 : Reader UInt64 := do pure (UInt64.ofNat (← nat 8))

/-- Reads the same kind of thing a number of times. -/
def replicate {α : Type} : Nat → Reader α → Reader (List α)
  | 0, _ => pure []
  | n + 1, r => do
    let x ← r
    let xs ← replicate n r
    pure (x :: xs)

/-- Reads a 16-bit count and so many things. -/
def counted {α : Type} (r : Reader α) : Reader (List α) := do replicate (← u16).toNat r

/-- Reads an 8-bit count and so many things. -/
def countedShort {α : Type} (r : Reader α) : Reader (List α) := do replicate (← u8).toNat r

/-- Passes over a number of bytes. -/
def skip (count : Nat) : Reader Unit := do
  let _ ← bytes count
  pure ()

/-- Passes over several things of one kind, which follow a 16-bit count. -/
def skipCounted (r : Reader Unit) : Reader Unit := do
  let _ ← counted r
  pure ()

/-- What is kept of an attribute. -/
inductive Attribute
  | constantValue (index : UInt16)
  | code (raw : RawCode)
  | exceptions (classes : List UInt16)
  | sourceFile (index : UInt16)
  | lineNumbers (entries : List LineEntry)
  | other
  deriving DecidableEq, Repr

/-- Passes over an annotation, given how to pass over the value of an element. -/
def skipAnnotationEntry (value : Reader Unit) : Reader Unit := do
  skip 2
  skipCounted do
    skip 2
    value

/-- Passes over the value of an annotation's element, nested at most `depth` deep. -/
def skipElementValue : Nat → Reader Unit
  | 0 => failure
  | depth + 1 => do
    let tag := Char.ofNat (← u8).toNat
    if "BCDFIJSZsc".contains tag then skip 2
    else if tag = 'e' then skip 4
    else if tag = '@' then skipAnnotationEntry (skipElementValue depth)
    else if tag = '[' then skipCounted (skipElementValue depth)
    else failure

/-- Passes over what an annotation of a type stands on. -/
def skipTypeTarget : Reader Unit := do
  let kind ← u8
  if kind ≤ 0x01 ∨ kind = 0x16 then skip 1
  else if kind = 0x10 ∨ kind = 0x17 ∨ (0x42 ≤ kind ∧ kind ≤ 0x46) then skip 2
  else if kind = 0x11 ∨ kind = 0x12 then skip 2
  else if 0x13 ≤ kind ∧ kind ≤ 0x15 then pure ()
  else if kind = 0x40 ∨ kind = 0x41 then skipCounted (skip 6)
  else if 0x47 ≤ kind ∧ kind ≤ 0x4b then skip 3
  else failure

def skipTypeAnnotationEntry (value : Reader Unit) : Reader Unit := do
  skipTypeTarget
  let _ ← countedShort (skip 2)
  skipAnnotationEntry value

/-- Passes over the type of a slot in a stack map. -/
def skipVerificationType : Reader Unit := do
  let tag ← u8
  if tag ≤ 6 then pure () else if tag ≤ 8 then skip 2 else failure

/-- Passes over a frame of a stack map. -/
def skipFrame : Reader Unit := do
  let kind ← u8
  if kind ≤ 63 then pure ()
  else if kind ≤ 127 then skipVerificationType
  else if kind ≤ 246 then failure
  else if kind = 247 then do
    skip 2
    skipVerificationType
  else if kind ≤ 251 then skip 2
  else if kind ≤ 254 then do
    skip 2
    let _ ← replicate (kind.toNat - 251) skipVerificationType
    pure ()
  else do
    skip 2
    skipCounted skipVerificationType
    skipCounted skipVerificationType

/-- Fails unless so many bytes are left. -/
def require (count : Nat) : Reader Unit := fun s =>
  if (s.take count).length = count then some ((), s) else none

/-- Reads an entry of an exception table. -/
def handler : Reader Handler := do pure ⟨← u16, ← u16, ← u16, ← u16⟩

def lineEntry : Reader LineEntry := do pure ⟨← u16, ← u16⟩

/-- Reads an attribute of the given name and declared length, given how to read the attributes
within it and the values of annotations. -/
def content (name : String) (length : Nat) (nested : Reader (List Attribute))
    (value : Reader Unit) : Reader Attribute := do
  let other := fun (r : Reader Unit) => do
    r
    pure Attribute.other
  match name with
  | "ConstantValue" => pure (.constantValue (← u16))
  | "Code" =>
    let maxStack ← u16
    let maxLocals ← u16
    let code ← bytes (← u32).toNat
    let handlers ← counted handler
    let attributes ← nested
    let lines := attributes.flatMap fun a =>
      match a with
      | .lineNumbers entries => entries
      | _ => []
    pure (.code ⟨maxStack, maxLocals, code, handlers, lines⟩)
  | "Exceptions" => pure (.exceptions (← counted u16))
  | "SourceFile" => pure (.sourceFile (← u16))
  | "LineNumberTable" => pure (.lineNumbers (← counted lineEntry))
  | "LocalVariableTable" => other (skipCounted (skip 10))
  | "LocalVariableTypeTable" => other (skipCounted (skip 10))
  | "InnerClasses" => other (skipCounted (skip 8))
  | "Synthetic" => pure .other
  | "Deprecated" => pure .other
  | "EnclosingMethod" => other (skip 4)
  | "Signature" => other (skip 2)
  | "RuntimeVisibleAnnotations" =>
    require length
    other (skipCounted (skipAnnotationEntry value))
  | "RuntimeInvisibleAnnotations" => other (skipCounted (skipAnnotationEntry value))
  | "RuntimeVisibleParameterAnnotations" =>
    let _ ← countedShort (skipCounted (skipAnnotationEntry value))
    pure .other
  | "RuntimeInvisibleParameterAnnotations" =>
    let _ ← countedShort (skipCounted (skipAnnotationEntry value))
    pure .other
  | "RuntimeVisibleTypeAnnotations" => other (skipCounted (skipTypeAnnotationEntry value))
  | "RuntimeInvisibleTypeAnnotations" => other (skipCounted (skipTypeAnnotationEntry value))
  | "AnnotationDefault" =>
    require length
    other value
  | "StackMapTable" => other (skipCounted skipFrame)
  | "BootstrapMethods" =>
    other (skipCounted do
      skip 2
      skipCounted (skip 2))
  | "MethodParameters" =>
    let _ ← countedShort (skip 4)
    pure .other
  | "NestHost" => other (skip 2)
  | "NestMembers" => other (skipCounted (skip 2))
  | "Record" =>
    other (skipCounted do
      skip 4
      let _ ← nested
      pure ())
  | "PermittedSubclasses" => other (skipCounted (skip 2))
  | "SourceDebugExtension" => other (skip length)
  | _ => failure

/-- Reads a table of attributes that are nested at most `depth` deep. -/
def attributes (pool : Pool) : Nat → Reader (List Attribute)
  | 0 => failure
  | depth + 1 =>
    counted do
      let name ← u16
      let length ← u32
      match pool[name.toNat]? with
      | some (some (.utf8 text)) =>
        content text length.toNat (attributes pool depth) (skipElementValue (depth + 1))
      | _ => failure

end JvmPatch.ClassLayout
