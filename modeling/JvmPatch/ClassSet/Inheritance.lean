import JvmPatch.ClassSet.Loading

/-! Inherited members. A public or protected instance method stands in the views of all ancestors
that declare its signature, so a script that is written against an ancestor and one that is written
against the class itself find the same method. A class is an owner of all members it inherits. -/

set_option autoImplicit false

namespace JvmPatch.ClassSet

/-- The ancestor of a class that has a given name. Only platform classes may be missing. -/
def loadAncestor (origin : ClassId) (name : String) : ClassSetM (Option ClassId) := do
  match ← load name with
  | some id => pure (some id)
  | none =>
    if isPlatformClass name then pure none
    else
      let set ← get
      throw (.unresolvedAncestor (set.classAt origin).name name)

/-- Takes a step at each of the named ancestors of a class and at their ancestors, depth first. No
name is entered twice, so the depth is at most one more than the number of names that can be
known. The result is the names that have been entered. -/
def forAncestors (step : ClassId → ClassSet → ClassSet) (origin : ClassId) :
    Nat → List String → List String → ClassSetM (List String)
  | 0, entered, _ => pure entered
  | fuel + 1, entered, names =>
    names.foldlM
      (fun entered name => do
        if entered.contains name then pure entered
        else
          match ← loadAncestor origin name with
          | none => pure (name :: entered)
          | some id =>
            modify (step id)
            let set ← get
            forAncestors step origin fuel (name :: entered) (set.classAt id).supertypes)
      entered

/-- A bound for the depth of walks over ancestors. -/
def depthBound (set : ClassSet) : Nat := set.classes.size + set.classpath.length + 1

/-- Shows a method in the view of a class, in place of the inheritable one with its signature. It
takes over the owners of what it replaces. -/
def showOverride (m : MethodId) (id : ClassId) (set : ClassSet) : ClassSet :=
  let method := set.methodAt m
  let c := set.classAt id
  let overridden := fun (v : MethodId) =>
    let shown := set.methodAt v
    shown.hasSignature method.name method.desc && shown.access.isInheritable
  match c.view.findIdx? overridden with
  | none => set
  | some place =>
    match c.view[place]? with
    | none => set
    | some replaced =>
      if replaced = m then set
      else
        let owners := (set.methodAt replaced).owners
        let set := set.modifyMethod m fun e =>
          { e with owners := owners.foldl (fun os o => insertAscending o os) e.owners }
        set.modifyClass id fun e => { e with view := e.view.set place m }

/-- Makes a class an owner of the inheritable members of another. -/
def inheritMembers (heir : ClassId) (id : ClassId) (set : ClassSet) : ClassSet :=
  let c := set.classAt id
  let fields := c.fields.filter fun f =>
    !(set.fieldAt f).hidden && (set.fieldAt f).access.isInheritable
  let methods := c.view.filter fun m =>
    !(set.methodAt m).hidden && (set.methodAt m).access.isInheritable
  let set := fields.foldl
    (fun set f => set.modifyField f fun e => { e with owners := insertAscending heir e.owners }) set
  methods.foldl
    (fun set m => set.modifyMethod m fun e => { e with
      owners := insertAscending heir e.owners }) set

def inheritableMethods (set : ClassSet) (id : ClassId) : List MethodId :=
  (set.classAt id).methods.filter fun m =>
    !(set.methodAt m).hidden && (set.methodAt m).access.isInheritable

/-- Shows the inheritable methods of a class in the views of its ancestors. -/
def showOverrides (id : ClassId) : ClassSetM Unit := do
  let set ← get
  (set.inheritableMethods id).forM fun m => do
    let set ← get
    let _ ← forAncestors (showOverride m) id set.depthBound [] (set.classAt id).supertypes

/-- Makes a class an owner of the members that it has or inherits. -/
def inheritAll (id : ClassId) : ClassSetM Unit := do
  modify (inheritMembers id id)
  let set ← get
  let c := set.classAt id
  let _ ← forAncestors (inheritMembers id) id set.depthBound [c.name] c.supertypes

/-- Works out inheritance among the candidates and their ancestors. -/
def shareInherited : ClassSetM Unit := do
  let set ← get
  let roots := set.candidates.filter fun id => !(set.classAt id).isExternal
  roots.forM showOverrides
  roots.forM inheritAll

/-- Makes a class set ready for a script: inheritance is worked out, and every class that a
candidate mentions is known. -/
def prepare : ClassSetM Unit := do
  shareInherited
  loadMentioned

end JvmPatch.ClassSet
