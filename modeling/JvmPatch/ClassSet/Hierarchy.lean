import JvmPatch.ClassSet.Basic

/-! Superclasses and superinterfaces. Supertypes are named, so they can be unknown, and the names
can form cycles; a walk enters no class twice. -/

set_option autoImplicit false

namespace JvmPatch.ClassSet

def superOf? (set : ClassSet) (id : ClassId) : Option ClassId :=
  (set.classAt id).superName.bind set.find?

/-- The known interfaces that a class names, in order. -/
def interfacesOf (set : ClassSet) (id : ClassId) : List ClassId :=
  (set.classAt id).interfaces.filterMap set.find?

/-- The superclasses from a class on, up to the first that is unknown or among `seen`. Their number
is at most the fuel. -/
def superChainFrom (set : ClassSet) : Nat → List ClassId → ClassId → List ClassId
  | 0, _, _ => []
  | fuel + 1, seen, id =>
    if id ∈ seen then []
    else
      match set.superOf? id with
      | none => [id]
      | some next => id :: superChainFrom set fuel (id :: seen) next

/-- A class and its superclasses, the nearest first. -/
def superChain (set : ClassSet) (id : ClassId) : List ClassId :=
  set.superChainFrom (set.classes.size + 1) [] id

/-- The interfaces that can be reached from those in `level` without entering a class of `seen`:
those of the level first, then those that they name, and so on. -/
def interfaceLevels (set : ClassSet) : Nat → List ClassId → List ClassId → List ClassId
  | 0, _, _ => []
  | fuel + 1, seen, level =>
    let entered := (level.filter fun id => !seen.contains id).eraseDups
    if entered.isEmpty then []
    else
      entered ++ interfaceLevels set fuel (seen ++ entered) (entered.flatMap set.interfacesOf)

/-- A class, its superclasses and then all their superinterfaces, in the order in which members are
looked up. -/
def hierarchy (set : ClassSet) (id : ClassId) : List ClassId :=
  let chain := set.superChain id
  chain ++ set.interfaceLevels (set.classes.size + 1) chain (chain.flatMap set.interfacesOf)

/-- The method that a class shows under a name and descriptor. -/
def viewed? (set : ClassSet) (name desc : String) (id : ClassId) : Option MethodId :=
  (set.classAt id).view.find? fun m => (set.methodAt m).hasSignature name desc

def declaredMethod? (set : ClassSet) (name desc : String) (id : ClassId) : Option MethodId :=
  (set.classAt id).methods.find? fun m => (set.methodAt m).hasSignature name desc

def declaredField? (set : ClassSet) (name desc : String) (id : ClassId) : Option FieldId :=
  (set.classAt id).fields.find? fun f => (set.fieldAt f).hasSignature name desc

/-- The method that a reference through a class means. -/
def findMethod (set : ClassSet) (id : ClassId) (name desc : String) : Option MethodId :=
  (set.hierarchy id).findSome? (set.viewed? name desc)

/-- The field that a reference through a class means. -/
def findField (set : ClassSet) (id : ClassId) (name desc : String) : Option FieldId :=
  (set.hierarchy id).findSome? (set.declaredField? name desc)

/-- The method whose body stands behind a method that is seen through a class: the declaration with
its signature in the class or its nearest superclass. -/
def bodyOf (set : ClassSet) (id : ClassId) (handle : MethodId) : Option MethodId :=
  let m := set.methodAt handle
  (set.superChain id).findSome? (set.declaredMethod? m.name m.desc)

/-- The superclasses and superinterfaces of a class in ascending order. -/
def ancestors (set : ClassSet) (id : ClassId) : List ClassId :=
  ((set.hierarchy id).filter (· != id)).mergeSort fun a b => a.index ≤ b.index

end JvmPatch.ClassSet
