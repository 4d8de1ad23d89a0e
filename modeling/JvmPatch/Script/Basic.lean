import JvmPatch.Insn.Basic
import JvmPatch.Pattern.Basic
import JvmPatch.Pattern.Mnemonic

/-! Patch scripts. A script describes classes by blocks of lines; each line says whether what it
describes has to be there, is added or is removed. -/

set_option autoImplicit false

namespace JvmPatch

/-- What becomes of the thing that a line describes. -/
inductive Mode
  | keep
  | add
  | remove
  deriving DecidableEq, Repr

/-- The mode that a line starting with a character has. -/
def Mode.ofMark? (c : Char) : Option Mode :=
  if c = '.' then some .keep
  else if c = '+' then some .add
  else if c = '-' then some .remove
  else none

/-- The character that lines of a mode start with. -/
def Mode.mark : Mode → Char
  | .keep => '.'
  | .add => '+'
  | .remove => '-'

/-- The kinds of classes that a block can ask for. -/
inductive ClassKind
  | ordinary
  | interface
  | enumeration
  deriving DecidableEq, Repr

def ClassKind.keyword : ClassKind → String
  | .ordinary => "class"
  | .interface => "interface"
  | .enumeration => "enum"

def ClassKind.ofKeyword? (word : String) : Option ClassKind :=
  [ordinary, interface, enumeration].find? fun k => k.keyword == word

structure SupertypeLine where
  mode : Mode
  ident : Ident
  deriving DecidableEq, Repr

/-- A line that describes a field. The descriptor is kept as it is written, too. -/
structure FieldLine where
  mode : Mode
  ident : Ident
  desc : String
  type : TypeDesc
  isStatic : Bool
  isPrivate : Bool
  value : Option Constant
  line : Nat
  deriving DecidableEq, Repr

/-- A line that describes an instruction or an exception region. -/
structure InsnLine where
  mode : Mode
  kind : PatternKind
  pattern : Pattern
  line : Nat
  text : String
  deriving DecidableEq, Repr

structure MethodBlock where
  mode : Mode
  ident : Ident
  desc : String
  type : MethodDesc
  isStatic : Bool
  isPrivate : Bool
  isProtected : Bool
  insns : List InsnLine
  line : Nat
  deriving DecidableEq, Repr

structure ClassBlock where
  mode : Mode
  kind : ClassKind
  ident : Ident
  line : Nat
  supers : List SupertypeLine
  interfaces : List SupertypeLine
  fields : List FieldLine
  methods : List MethodBlock
  deriving DecidableEq, Repr

structure Script where
  classes : List ClassBlock
  deriving DecidableEq, Repr

/-- How messages refer to a class block. -/
def ClassBlock.describe (c : ClassBlock) : String := c.kind.keyword ++ " " ++ c.ident.text

/-- How messages refer to a member of a class block. -/
def ClassBlock.describeMember (c : ClassBlock) (what : String) (ident : Ident) (desc : String) :
    String :=
  what ++ " " ++ c.ident.text ++ "." ++ ident.text ++ " " ++ desc

/-- How messages refer to a field line. -/
def FieldLine.describe (f : FieldLine) (owner : ClassBlock) : String :=
  owner.describeMember "field" f.ident f.desc

/-- How messages refer to a method block. -/
def MethodBlock.describe (m : MethodBlock) (owner : ClassBlock) : String :=
  owner.describeMember "method" m.ident m.desc

end JvmPatch
