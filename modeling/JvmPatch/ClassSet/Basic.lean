import JvmPatch.ClassFile.Basic
import JvmPatch.Files.Error
import JvmPatch.Table

/-! The classes that a run knows: those it was given, those that were taken from the classpath
because others mention them, and stubs for classes that nobody provides. Classes, methods and fields
are numbered in the order in which they come in, and a number is never used again. -/

set_option autoImplicit false

namespace JvmPatch

structure ClassId where
  index : Nat
  deriving DecidableEq, Repr, Ord, Inhabited

structure MethodId where
  index : Nat
  deriving DecidableEq, Repr, Ord, Inhabited

structure FieldId where
  index : Nat
  deriving DecidableEq, Repr, Ord, Inhabited

structure ClassEntry extends ClassHeader where
  fields : List FieldId := []
  /-- The methods that the class declares. -/
  methods : List MethodId := []
  /-- The methods as scripts see them: an inherited method is shown in the form in which a subclass
  declares it. -/
  view : List MethodId := []
  /-- Hidden classes are not matched. -/
  hidden : Bool := false
  /-- Whether the class is a stub. -/
  isExternal : Bool := false
  /-- Whether the class differs from the bytes that it was read from. -/
  modified : Bool := true
  removed : Bool := false
  /-- The bytes that the class was read from. -/
  source : Option Bytes := none
  deriving DecidableEq, Repr

/-- A method, the class that declares it and the classes through which it can be reached. -/
structure MethodEntry extends MethodDecl where
  declaredBy : ClassId
  owners : List ClassId
  hidden : Bool := false
  deriving DecidableEq, Repr

/-- A field, the class that declares it and the classes through which it can be reached. -/
structure FieldEntry extends FieldDecl where
  declaredBy : ClassId
  owners : List ClassId
  hidden : Bool := false
  deriving DecidableEq, Repr

/-- A class of a given name that declares nothing. -/
def ClassEntry.fresh (name : String) (superName : Option String) (access : Access) : ClassEntry :=
  { name := name
    superName := superName
    interfaces := []
    access := access
    major := 50
    minor := 0
    sourceFile := none }

/-- The stub for a class that nobody provides. -/
def ClassEntry.stub (name : String) : ClassEntry :=
  { ClassEntry.fresh name none 0 with hidden := true, isExternal := true, modified := false }

instance : Inhabited ClassEntry := ⟨ClassEntry.stub ""⟩

instance : Inhabited MethodEntry :=
  ⟨{ name := "", desc := "", access := 0, exceptions := [], code := none, declaredBy := ⟨0⟩,
     owners := [], hidden := true }⟩

instance : Inhabited FieldEntry :=
  ⟨{ name := "", desc := "", access := 0, value := none, declaredBy := ⟨0⟩, owners := [],
     hidden := true }⟩

def MethodEntry.hasSignature (m : MethodEntry) (name desc : String) : Bool :=
  m.name == name && m.desc == desc

def FieldEntry.hasSignature (f : FieldEntry) (name desc : String) : Bool :=
  f.name == name && f.desc == desc

/-- A file of the classpath: its bytes, or why there are none. -/
inductive ClasspathFile
  | content (bytes : Bytes)
  | unreadable (file : UnreadableFile)
  deriving DecidableEq, Repr

/-- The files of a classpath by the names of their classes. -/
abbrev Classpath := List (String × ClasspathFile)

/-- The known classes, and the classpath from which others can be taken by name. -/
structure ClassSet where
  classes : Array ClassEntry := #[]
  methods : Array MethodEntry := #[]
  fields : Array FieldEntry := #[]
  classpath : Classpath := []
  deriving DecidableEq, Repr

namespace ClassSet

def classAt (set : ClassSet) (id : ClassId) : ClassEntry := (set.classes[id.index]?).getD default

def methodAt (set : ClassSet) (id : MethodId) : MethodEntry := (set.methods[id.index]?).getD default

def fieldAt (set : ClassSet) (id : FieldId) : FieldEntry := (set.fields[id.index]?).getD default

def modifyClass (set : ClassSet) (id : ClassId) (f : ClassEntry → ClassEntry) : ClassSet :=
  { set with classes := set.classes.modify id.index f }

def modifyMethod (set : ClassSet) (id : MethodId) (f : MethodEntry → MethodEntry) : ClassSet :=
  { set with methods := set.methods.modify id.index f }

def modifyField (set : ClassSet) (id : FieldId) (f : FieldEntry → FieldEntry) : ClassSet :=
  { set with fields := set.fields.modify id.index f }

/-- The numbers of the classes in ascending order. -/
def classIds (set : ClassSet) : List ClassId := (List.range set.classes.size).map ClassId.mk

def find? (set : ClassSet) (name : String) : Option ClassId :=
  (set.classes.findIdx? fun c => c.name == name).map ClassId.mk

def nextClass (set : ClassSet) : ClassId := ⟨set.classes.size⟩

def nextMethod (set : ClassSet) : MethodId := ⟨set.methods.size⟩

def nextField (set : ClassSet) : FieldId := ⟨set.fields.size⟩

def addClass (set : ClassSet) (c : ClassEntry) : ClassSet :=
  { set with classes := set.classes.push c }

def addMethod (set : ClassSet) (id : ClassId) (m : MethodDecl) (hidden : Bool) : ClassSet :=
  let entry : MethodEntry := { m with declaredBy := id, owners := [id], hidden := hidden }
  let added := { set with methods := set.methods.push entry }
  added.modifyClass id fun c =>
    { c with methods := c.methods ++ [set.nextMethod], view := c.view ++ [set.nextMethod] }

def addField (set : ClassSet) (id : ClassId) (f : FieldDecl) (hidden : Bool) : ClassSet :=
  let entry : FieldEntry := { f with declaredBy := id, owners := [id], hidden := hidden }
  let added := { set with fields := set.fields.push entry }
  added.modifyClass id fun c => { c with fields := c.fields ++ [set.nextField] }

/-- Adds a class with its members, unless its name is taken. The members of a hidden class are
hidden, too. -/
def insert? (set : ClassSet) (file : ClassFile) (source : Option Bytes) (hidden : Bool) :
    Option ClassSet :=
  if (set.find? file.header.name).isSome then none
  else
    let entry : ClassEntry :=
      { file.header with hidden := hidden, modified := false, source := source }
    let id := set.nextClass
    let set := set.addClass entry
    let set := file.fields.foldl (fun set f => set.addField id f hidden) set
    some (file.methods.foldl (fun set m => set.addMethod id m hidden) set)

/-- Takes a method out of its class and out of every view that shows it. -/
def removeMethod (set : ClassSet) (id : MethodId) : ClassSet :=
  let drop := fun (c : ClassEntry) =>
    { c with methods := c.methods.filter (· != id), view := c.view.filter (· != id) }
  let set := set.modifyMethod id fun m => { m with hidden := true }
  { set with classes := set.classes.map drop }

def removeField (set : ClassSet) (id : FieldId) : ClassSet :=
  let set := set.modifyField id fun f => { f with hidden := true }
  set.modifyClass (set.fieldAt id).declaredBy fun c =>
    { c with fields := c.fields.filter (· != id) }

/-- Whether scripts can match a class. -/
def isCandidate (set : ClassSet) (id : ClassId) : Bool :=
  let c := set.classAt id
  !c.hidden && !c.removed

/-- The classes that scripts can match, by name. -/
def candidates (set : ClassSet) : List ClassId :=
  (set.classIds.filter set.isCandidate).mergeSort fun a b =>
    (compare (set.classAt a).name (set.classAt b).name).isLE

def methodCandidates (set : ClassSet) (id : ClassId) : List MethodId :=
  (set.classAt id).view.filter fun m => !(set.methodAt m).hidden

def fieldCandidates (set : ClassSet) (id : ClassId) : List FieldId :=
  (set.classAt id).fields.filter fun f => !(set.fieldAt f).hidden

end ClassSet

end JvmPatch
