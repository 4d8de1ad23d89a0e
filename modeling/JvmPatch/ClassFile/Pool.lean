import JvmPatch.ClassFile.Basic

/-! The constant pool of a class file: numbered entries that refer to each other. -/

set_option autoImplicit false

namespace JvmPatch

/-- An entry of a constant pool. Numbers of other entries are given as they are in the file. -/
inductive PoolEntry
  | utf8 (text : String)
  | int (value : Int32)
  | float (bits : UInt32)
  | long (value : Int64)
  | double (bits : UInt64)
  | classRef (name : UInt16)
  | string (text : UInt16)
  | fieldRef (owner nameAndType : UInt16)
  | methodRef (owner nameAndType : UInt16)
  | interfaceMethodRef (owner nameAndType : UInt16)
  | nameAndType (name desc : UInt16)
  | methodHandle (kind : UInt8) (target : UInt16)
  | methodType (desc : UInt16)
  | dynamic (bootstrap nameAndType : UInt16)
  | invokeDynamic (bootstrap nameAndType : UInt16)
  | module (name : UInt16)
  | package (name : UInt16)
  deriving DecidableEq, Repr

/-- The numbers that an entry takes up: two for 64-bit constants. -/
def PoolEntry.width : PoolEntry → Nat
  | .long _ | .double _ => 2
  | _ => 1

/-- A constant pool as it is read. Number zero and the second number of a 64-bit constant have no
entry. -/
abbrev Pool := Array (Option PoolEntry)

/-- What a number of the pool is expected to name. -/
inductive PoolRole
  | utf8
  | classRef
  | constant
  | pushable
  | memberRef
  | nameAndType
  | invokeDynamic
  deriving DecidableEq, Repr

def PoolRole.text : PoolRole → String
  | .utf8 => "utf8 entry"
  | .classRef => "class entry"
  | .constant => "constant entry"
  | .pushable => "ldc constant"
  | .memberRef => "member ref entry"
  | .nameAndType => "name and type entry"
  | .invokeDynamic => "invokedynamic entry"

end JvmPatch
