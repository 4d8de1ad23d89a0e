/-! Types and method types of the JVM and their descriptors. A descriptor is a number of array
dimensions over a base type, so each type has exactly one form here. The names in a descriptor are
taken as they are; in scripts they can be placeholders. -/

set_option autoImplicit false

namespace JvmPatch

/-- A type without array dimensions. -/
inductive BaseType
  | byte
  | char
  | double
  | float
  | int
  | long
  | short
  | boolean
  | void
  | object (name : String)
  deriving DecidableEq, Repr

/-- A type: a base type under up to 255 array dimensions. -/
structure TypeDesc where
  dims : UInt8
  base : BaseType
  deriving DecidableEq, Repr

structure MethodDesc where
  params : List TypeDesc
  result : TypeDesc
  deriving DecidableEq, Repr

def BaseType.chars : BaseType → List Char
  | .byte => ['B']
  | .char => ['C']
  | .double => ['D']
  | .float => ['F']
  | .int => ['I']
  | .long => ['J']
  | .short => ['S']
  | .boolean => ['Z']
  | .void => ['V']
  | .object name => 'L' :: (name.toList ++ [';'])

def TypeDesc.chars (t : TypeDesc) : List Char := List.replicate t.dims.toNat '[' ++ t.base.chars

def MethodDesc.chars (m : MethodDesc) : List Char :=
  '(' :: (m.params.flatMap TypeDesc.chars ++ ')' :: m.result.chars)

def TypeDesc.text (t : TypeDesc) : String := String.ofList t.chars

def MethodDesc.text (m : MethodDesc) : String := String.ofList m.chars

namespace TypeDesc

/-- The type without dimensions over a base type. -/
def ofBase (b : BaseType) : TypeDesc := ⟨0, b⟩

def object (name : String) : TypeDesc := ofBase (.object name)

/-- The type that only results have. -/
def void : TypeDesc := ofBase .void

def isArray (t : TypeDesc) : Bool := t.dims != 0

def isReference (t : TypeDesc) : Bool :=
  t.isArray ||
    match t.base with
    | .object _ => true
    | _ => false

/-- The slots that a value takes on the operand stack or in the local variables. -/
def slots (t : TypeDesc) : UInt16 :=
  if t.isArray then 1
  else
    match t.base with
    | .void => 0
    | .long | .double => 2
    | _ => 1

/-- The operand of a class instruction that means the type: the plain name of a class, and the
descriptor of anything else. -/
def classOperand (t : TypeDesc) : String :=
  if t.isArray then t.text
  else
    match t.base with
    | .object name => name
    | _ => t.text

def classNames (t : TypeDesc) : List String :=
  match t.base with
  | .object name => [name]
  | _ => []

/-- The code of a primitive element type in `newarray`. -/
def arrayCode? (t : TypeDesc) : Option UInt8 :=
  if t.isArray then none
  else
    match t.base with
    | .boolean => some 4
    | .char => some 5
    | .float => some 6
    | .double => some 7
    | .byte => some 8
    | .short => some 9
    | .int => some 10
    | .long => some 11
    | .void | .object _ => none

/-- The element type that a code in `newarray` stands for. -/
def ofArrayCode? (code : UInt8) : Option TypeDesc :=
  (if code = 4 then some BaseType.boolean
  else if code = 5 then some BaseType.char
  else if code = 6 then some BaseType.float
  else if code = 7 then some BaseType.double
  else if code = 8 then some BaseType.byte
  else if code = 9 then some BaseType.short
  else if code = 10 then some BaseType.int
  else if code = 11 then some BaseType.long
  else none).map ofBase

end TypeDesc

namespace MethodDesc

/-- The names of the classes in the type, in the order of its parameters and its result. -/
def classNames (m : MethodDesc) : List String :=
  m.params.flatMap TypeDesc.classNames ++ m.result.classNames

/-- The slots of the parameters, and of the receiver if the method has one. The count stops at the
largest 16-bit number. -/
def parameterSlots (m : MethodDesc) (isStatic : Bool) : UInt16 :=
  m.params.foldl
    (fun n t => if n.toNat + t.slots.toNat ≤ 65535 then n + t.slots else 65535)
    (if isStatic then 0 else 1)

/-- The slots that a call takes off the operand stack, in 16-bit arithmetic. -/
def argumentSlots (m : MethodDesc) (isStatic : Bool) : UInt16 :=
  m.params.foldl (fun n t => n + t.slots) 0 + (if isStatic then 0 else 1)

end MethodDesc

end JvmPatch
