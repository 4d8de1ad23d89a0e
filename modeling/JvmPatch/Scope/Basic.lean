import JvmPatch.ClassSet.Basic
import JvmPatch.Ident

/-! What the weak names of a script stand for. A name stands for one thing and a thing has one name;
labels have names of their own in each method body. -/

set_option autoImplicit false

namespace JvmPatch

/-- How a script refers to a member: the name as it is written, tilde included, and the descriptor
as it is written. -/
structure MemberKey where
  name : String
  desc : String
  deriving DecidableEq, Repr

def MemberKey.of (ident : Ident) (desc : String) : MemberKey := ⟨ident.text, desc⟩

/-- A weak name of a label in a method body. -/
structure LabelKey where
  body : MethodId
  name : String
  deriving DecidableEq, Repr, Ord

/-- Where the lines of a method block were found in a body: line numbers within the block with the
places of instructions or of exception regions. -/
structure MethodMatch where
  positions : Table Nat Nat := {}
  regions : Table Nat Nat := {}
  deriving DecidableEq, Repr

/-- The meanings of weak names, and where the lines of method blocks were found. -/
structure Scope where
  classes : Table String ClassId := {}
  methods : Table MethodId MemberKey := {}
  fields : Table FieldId MemberKey := {}
  labels : Table LabelKey Label := {}
  bodies : Table MethodId MethodMatch := {}
  deriving DecidableEq, Repr

namespace Scope

/-- The class that a weak name stands for. -/
def class? (scope : Scope) (key : String) : Option ClassId := scope.classes.get? key

def classKey? (scope : Scope) (id : ClassId) : Option String :=
  scope.classes.findKey? fun bound => bound == id

/-- Lets a weak name stand for a class, unless one of them is taken. -/
def bindClass? (scope : Scope) (key : String) (id : ClassId) : Option Scope :=
  match scope.class? key with
  | some bound => if bound = id then some scope else none
  | none =>
    if (scope.classKey? id).isSome then none
    else some { scope with classes := scope.classes.insert key id }

/-- The methods that a key stands for, in ascending order. -/
def methodsOf (scope : Scope) (key : MemberKey) : List MethodId :=
  (scope.methods.entries.filter fun e => e.2 == key).map Prod.fst

/-- The method that a key stands for in a class. A method that the class declares comes before one
that it inherits. -/
def method? (scope : Scope) (set : ClassSet) (owner : ClassId) (key : MemberKey) :
    Option MethodId :=
  let bound := scope.methodsOf key
  match bound.find? fun id => (set.methodAt id).declaredBy == owner with
  | some id => some id
  | none => bound.find? fun id => (set.methodAt id).owners.contains owner

/-- Lets a key stand for a method, unless the method has another key or the key stands for another
method that the class declares. -/
def bindMethod? (scope : Scope) (set : ClassSet) (owner : ClassId) (key : MemberKey)
    (id : MethodId) : Option Scope :=
  match scope.methods.get? id with
  | some bound => if bound = key then some scope else none
  | none =>
    let taken := (scope.method? set owner key).any fun bound =>
      bound != id && (set.methodAt bound).declaredBy == owner
    if taken then none else some { scope with methods := scope.methods.insert id key }

/-- The fields that a key stands for, in ascending order. -/
def fieldsOf (scope : Scope) (key : MemberKey) : List FieldId :=
  (scope.fields.entries.filter fun e => e.2 == key).map Prod.fst

/-- The field that a key stands for in a class. A field that the class declares comes before one
that it inherits. -/
def field? (scope : Scope) (set : ClassSet) (owner : ClassId) (key : MemberKey) : Option FieldId :=
  let bound := scope.fieldsOf key
  match bound.find? fun id => (set.fieldAt id).declaredBy == owner with
  | some id => some id
  | none => bound.find? fun id => (set.fieldAt id).owners.contains owner

/-- Lets a key stand for a field, unless the field has another key or the key stands for another
field that the class declares. -/
def bindField? (scope : Scope) (set : ClassSet) (owner : ClassId) (key : MemberKey)
    (id : FieldId) : Option Scope :=
  match scope.fields.get? id with
  | some bound => if bound = key then some scope else none
  | none =>
    let taken := (scope.field? set owner key).any fun bound =>
      bound != id && (set.fieldAt bound).declaredBy == owner
    if taken then none else some { scope with fields := scope.fields.insert id key }

def label? (scope : Scope) (body : MethodId) (name : String) : Option Label :=
  scope.labels.get? ⟨body, name⟩

/-- Lets a weak name stand for a label of a body, unless one of them is taken. -/
def bindLabel? (scope : Scope) (body : MethodId) (name : String) (label : Label) : Option Scope :=
  match scope.label? body name with
  | some bound => if bound = label then some scope else none
  | none =>
    if scope.labels.entries.any fun e => e.1.body == body && e.2 == label then none
    else some { scope with labels := scope.labels.insert ⟨body, name⟩ label }

/-- Where the lines of a block were found in a body. -/
def methodMatch? (scope : Scope) (body : MethodId) : Option MethodMatch := scope.bodies.get? body

/-- Notes where the lines of a block were found in a body. -/
def recordMatch (scope : Scope) (body : MethodId) (found : MethodMatch) : Scope :=
  { scope with bodies := scope.bodies.insert body found }

/-- Forgets the labels of a body and what was found in it. -/
def clearBody (scope : Scope) (body : MethodId) : Scope :=
  { scope with
    labels := scope.labels.filterKeys fun key => key.body != body
    bodies := scope.bodies.erase body }

end Scope

/-- Steps that bind weak names. What a step binds before it fails stays bound. -/
abbrev ScopeM := StateM Scope

namespace ScopeM

/-- Keeps the new scope if there is one, and says whether there is. -/
def update (f : Scope → Option Scope) : ScopeM Bool := do
  match f (← get) with
  | some scope =>
    set scope
    pure true
  | none => pure false

/-- The second test is made only if the first one succeeds. -/
def both (first second : ScopeM Bool) : ScopeM Bool := do if ← first then second else pure false

/-- Tests every element in order, up to the first that fails. -/
def all {α : Type} (test : α → ScopeM Bool) : List α → ScopeM Bool
  | [] => pure true
  | x :: xs => both (test x) (all test xs)

end ScopeM

end JvmPatch
