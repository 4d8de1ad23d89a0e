import JvmPatch.Access
import JvmPatch.Insn.Basic

/-! What a class file says about a class, apart from the attributes that are not kept. -/

set_option autoImplicit false

namespace JvmPatch

abbrev Bytes := List UInt8

def objectClass : String := "java/lang/Object"

structure FieldDecl where
  name : String
  desc : String
  access : Access
  value : Option Constant
  deriving DecidableEq, Repr

structure MethodDecl where
  name : String
  desc : String
  access : Access
  exceptions : List String
  code : Option Code
  deriving DecidableEq, Repr

/-- Whether calls of the method have no receiver. -/
def MethodDecl.isStatic (m : MethodDecl) : Bool := m.access.hasAny Access.isStatic

structure ClassHeader where
  name : String
  superName : Option String
  interfaces : List String
  access : Access
  major : UInt16
  minor : UInt16
  sourceFile : Option String
  deriving DecidableEq, Repr

namespace ClassHeader

def isInterface (c : ClassHeader) : Bool := c.access.hasAny Access.isInterface

def isEnum (c : ClassHeader) : Bool := c.access.hasAny Access.isEnum

/-- The interfaces of the class and then its superclass. -/
def supertypes (c : ClassHeader) : List String := c.interfaces ++ c.superName.toList

end ClassHeader

/-- A class with its members in the order of their declaration. -/
structure ClassFile where
  header : ClassHeader
  fields : List FieldDecl
  methods : List MethodDecl
  deriving DecidableEq, Repr

end JvmPatch
