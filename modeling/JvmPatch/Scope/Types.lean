import JvmPatch.Descriptor.Basic
import JvmPatch.Scope.Basic

/-! Types of scripts against types of classes. A weak class name that stands for nothing yet is made
to stand for the class that it meets. -/

set_option autoImplicit false

namespace JvmPatch

inductive TypeCheck
  | unchanged
  /-- A weak name has been bound. -/
  | bound
  | rejected
  deriving DecidableEq, Repr

def TypeCheck.accepted (c : TypeCheck) : Bool := c != .rejected

/-- The result of two comparisons together. -/
def TypeCheck.and : TypeCheck → TypeCheck → TypeCheck
  | .rejected, _ | _, .rejected => .rejected
  | .bound, _ | _, .bound => .bound
  | .unchanged, .unchanged => .unchanged

/-- Why method types do not agree. -/
inductive TypeMismatch
  | argumentCount (expected found : Nat)
  | type (expected found : TypeDesc)
  deriving DecidableEq, Repr

def TypeMismatch.message : TypeMismatch → String
  | .argumentCount expected found => s!"argument count mismatch {expected} != {found}"
  | .type expected found => "type mismatch " ++ expected.text ++ " != " ++ found.text

namespace ClassSet

/-- Compares a class name of a script with the name of a class. -/
def checkClassName (set : ClassSet) (pattern name : String) : ScopeM TypeCheck := do
  if isAnyName pattern then pure .unchanged
  else if !isWeakName pattern then pure (if pattern = name then .unchanged else .rejected)
  else
    match (← get).class? pattern with
    | some bound => pure (if (set.classAt bound).name = name then .unchanged else .rejected)
    | none =>
      match set.find? name with
      | none => pure .rejected
      | some id =>
        if ← ScopeM.update fun scope => scope.bindClass? pattern id then pure .bound
        else pure .rejected

def checkType (set : ClassSet) (pattern type : TypeDesc) : ScopeM TypeCheck :=
  if pattern.dims ≠ type.dims then pure .rejected
  else
    match pattern.base, type.base with
    | .object expected, .object name => set.checkClassName expected name
    | expected, found => pure (if expected = found then .unchanged else .rejected)

/-- Compares the types of parameters in order, up to the first mismatch. -/
def checkParams (set : ClassSet) : List TypeDesc → List TypeDesc → TypeCheck →
    EStateM TypeMismatch Scope TypeCheck
  | p :: ps, t :: ts, soFar => do
    let scope ← get
    let (check, scope) := (set.checkType p t).run scope
    EStateM.set scope
    if check.accepted then checkParams set ps ts (soFar.and check) else throw (.type p t)
  | _, _, soFar => pure soFar

/-- Compares the number of parameters, then their types, then the results. -/
def checkMethodTypes (set : ClassSet) (pattern type : MethodDesc) :
    EStateM TypeMismatch Scope TypeCheck := do
  if pattern.params.length ≠ type.params.length then
    throw (.argumentCount pattern.params.length type.params.length)
  else
    let params ← set.checkParams pattern.params type.params .unchanged
    set.checkParams [pattern.result] [type.result] params

def methodTypesAgree (set : ClassSet) (pattern type : MethodDesc) : ScopeM Bool := fun scope =>
  match (set.checkMethodTypes pattern type).run scope with
  | .ok _ scope => (true, scope)
  | .error _ scope => (false, scope)

def typesAgree (set : ClassSet) (pattern type : TypeDesc) : ScopeM Bool := do
  pure (← set.checkType pattern type).accepted

end ClassSet

/-- A weak class name that stands for nothing. -/
structure UnboundName where
  name : String
  deriving DecidableEq, Repr

def UnboundName.message (e : UnboundName) : String := e.name ++ " is not bound"

namespace Scope

/-- The name of the class that a class name of a script stands for. -/
def mapClass (scope : Scope) (set : ClassSet) (name : String) : Except UnboundName String :=
  if isWeakName name then
    match scope.class? name with
    | some id => .ok (set.classAt id).name
    | none => .error ⟨name⟩
  else .ok name

/-- A type of a script with the classes that its names stand for. -/
def mapType (scope : Scope) (set : ClassSet) (type : TypeDesc) : Except UnboundName TypeDesc :=
  match type.base with
  | .object name => (scope.mapClass set name).map fun name => { type with base := .object name }
  | _ => .ok type

/-- A method type of a script with the classes that its names stand for. -/
def mapMethod (scope : Scope) (set : ClassSet) (type : MethodDesc) :
    Except UnboundName MethodDesc := do
  let params ← type.params.mapM (scope.mapType set)
  let result ← scope.mapType set type.result
  pure ⟨params, result⟩

end Scope

end JvmPatch
