import JvmPatch.Pattern.Instantiate
import JvmPatch.Resolve.Walk

/-! What can go wrong when a script is applied. -/

set_option autoImplicit false

namespace JvmPatch

/-- Why a line of a script cannot be carried out. -/
inductive LineFault
  | unbound (cause : UnboundName)
  | instantiate (cause : InstantiateError)
  | descriptor (cause : DescriptorError)
  deriving DecidableEq, Repr

def LineFault.message : LineFault → String
  | .unbound cause => cause.message
  | .instantiate cause => cause.message
  | .descriptor cause => cause.message

/-- How a body differs from what was found in it. -/
inductive Inconsistency
  | regionNotMatched
  | notMatched
  | precedesCursor (place cursor : Nat)
  | noLongerMatches (text : String)
  deriving DecidableEq, Repr

def Inconsistency.message : Inconsistency → String
  | .regionNotMatched => "region was not matched"
  | .notMatched => "pattern was not matched"
  | .precedesCursor place cursor => s!"match at {place} precedes cursor {cursor}"
  | .noLongerMatches text => text ++ " no longer matches"

/-- Why the labels of a body are not in order. -/
inductive LabelFault
  | placedTwice (l : Label)
  | neverPlaced (l : Label)
  deriving DecidableEq, Repr

def LabelFault.message : LabelFault → String
  | .placedTwice l => s!"label {l.index} is placed twice"
  | .neverPlaced l => s!"label {l.index} is used but never placed"

/-- Why a script cannot be applied. -/
inductive ApplyError
  | line (line : Nat) (fault : LineFault)
  | inconsistent (className method : String) (line : Nat) (cause : Inconsistency)
  | classExists (line : Nat) (name : String)
  | alreadyBound (line : Nat) (ident : Ident)
  | neverAssigned (element : String)
  | noBody (method : String)
  | noCode (method desc : String)
  | methodDesc (cause : MalformedMethodDesc)
  | labels (line : Nat) (fault : LabelFault)
  deriving DecidableEq, Repr

def ApplyError.message : ApplyError → String
  | .line n fault => atLine n fault.message
  | .inconsistent className method n cause =>
    "applier disagrees with verifier in " ++ className ++ "." ++ method ++ ": " ++
      atLine n cause.message
  | .classExists n name => atLine n ("class " ++ name ++ " already exists")
  | .alreadyBound n ident => atLine n (ident.text ++ " is already bound")
  | .neverAssigned element => element ++ " was never assigned"
  | .noBody method => method ++ " has no body"
  | .noCode method desc => method ++ desc ++ " has no code"
  | .methodDesc cause => cause.message
  | .labels n fault => atLine n fault.message

end JvmPatch
