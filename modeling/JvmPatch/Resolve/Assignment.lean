import JvmPatch.ClassSet.Basic
import JvmPatch.Resolve.Walk

/-! Assignments of classes, fields and methods to the blocks and lines of a script, and why they are
turned down. -/

set_option autoImplicit false

namespace JvmPatch

/-- What is assigned to a class block and its members. Nothing is assigned to what is added, until
it has been added. -/
structure ClassChoice where
  cls : Option ClassId
  fields : List (Option FieldId)
  methods : List (Option MethodId)
  deriving DecidableEq, Repr

/-- What is assigned to the class blocks of a script, in order. -/
abbrev Assignment := List ClassChoice

inductive ElementKind
  | cls
  | field
  | method
  deriving DecidableEq, Repr

def ElementKind.word : ElementKind → String
  | .cls => "class"
  | .field => "field"
  | .method => "method"

/-- Why an assignment is turned down. -/
inductive Reason
  | notAssigned (kind : ElementKind)
  | noCandidateLeft (kind : ElementKind)
  | claimed (kind : ElementKind)
  | noCandidates
  | name (expected : Ident) (found : String)
  | notAnInterface (name : String)
  | notAnEnum (name : String)
  | noSuperclass (name : String)
  | superclass (expected : Ident) (found : String)
  | noInterfaces (name : String)
  | interface (expected : Ident)
  | descriptor (cause : DescriptorError)
  | type (expected found : String)
  | modifier (word : String)
  | value (expected : Constant)
  | methodType (cause : TypeMismatch)
  | noBody (name : String)
  | noCode (name : String)
  | body (cause : WalkFault)
  deriving DecidableEq, Repr

def Reason.message : Reason → String
  | .notAssigned kind => "no " ++ kind.word ++ " assigned"
  | .noCandidateLeft kind => "no candidate " ++ kind.word ++ " left"
  | .claimed kind => "candidate " ++ kind.word ++ " already claimed"
  | .noCandidates => "no candidates"
  | .name expected found => "name mismatch " ++ expected.text ++ " != " ++ found
  | .notAnInterface who => who ++ " is not an interface"
  | .notAnEnum who => who ++ " is not an enum"
  | .noSuperclass who => who ++ " has no superclass"
  | .superclass expected found => "super mismatch " ++ expected.text ++ " != " ++ found
  | .noInterfaces who => who ++ " implements no interfaces"
  | .interface expected => "no interface matches " ++ expected.text
  | .descriptor cause => cause.message
  | .type expected found => "type mismatch " ++ expected ++ " != " ++ found
  | .modifier word => word ++ " modifier mismatch"
  | .value expected => "constant value mismatch, expected " ++ expected.dump
  | .methodType cause => cause.message
  | .noBody who => who ++ " has no body"
  | .noCode who => who ++ " has no code"
  | .body cause => cause.message

/-- Why an assignment is turned down, for which part of the script, and how many checks it passed
before that. -/
structure Rejection where
  progress : Nat
  element : String
  reason : Reason
  deriving DecidableEq, Repr

end JvmPatch
