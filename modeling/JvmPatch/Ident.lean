/-! Names in scripts. A name written after a tilde is weak: it stands for something that matching
has to find. The star stands for anything and is never bound. -/

set_option autoImplicit false

namespace JvmPatch

/-- A name of a script. -/
structure Ident where
  name : String
  weak : Bool
  deriving DecidableEq, Repr

namespace Ident

/-- Reads a name. Only the first tilde is a mark. -/
def ofChars : List Char → Ident
  | '~' :: s => ⟨String.ofList s, true⟩
  | s => ⟨String.ofList s, false⟩

def ofText (s : String) : Ident := ofChars s.toList

def text (i : Ident) : String := if i.weak then "~" ++ i.name else i.name

/-- The name that stands for anything. -/
def isWildcard (i : Ident) : Bool := i.name == "*"

/-- Whether matching binds the name. -/
def isBindable (i : Ident) : Bool := i.weak && !i.isWildcard

/-- Whether the name admits one spelling only. -/
def isStrong (i : Ident) : Bool := !i.weak && !i.isWildcard

end Ident

/-- Whether a class name in a script is written as a weak name. -/
def isWeakName (s : String) : Bool := s.toList.head? == some '~'

/-- Whether a class name in a script stands for any class. -/
def isAnyName (s : String) : Bool := s == "*" || s == "~*"

end JvmPatch
