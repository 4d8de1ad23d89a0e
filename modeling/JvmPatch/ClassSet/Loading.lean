import JvmPatch.ClassFile.Reader
import JvmPatch.ClassSet.Basic
import JvmPatch.Descriptor.Parser

/-! Taking classes that others mention from the classpath. What is taken is hidden: it can be
mentioned and inherited from, but it is not matched. -/

set_option autoImplicit false

namespace JvmPatch

/-! ### The classes that a class mentions -/

/-- The classes in the descriptor of a field or a method. A malformed descriptor has none. -/
def descriptorClasses (desc : String) : List String :=
  match desc.toList with
  | '(' :: _ => ((MethodDesc.parse desc).map MethodDesc.classNames).toOption.getD []
  | _ => ((TypeDesc.parse desc).map TypeDesc.classNames).toOption.getD []

def operandClasses (operand : String) : List String :=
  match operand.toList with
  | '[' :: _ => descriptorClasses operand
  | _ => [operand]

/-- The classes that an instruction mentions. -/
def Insn.classNames : Insn → List String
  | .field _ owner _ desc | .invoke _ owner _ desc _ =>
    operandClasses owner ++ descriptorClasses desc
  | .type _ className | .push (.classRef className) => operandClasses className
  | .multiNewArray desc _ => descriptorClasses desc
  | _ => []

/-- The classes that a method body mentions. -/
def Code.classNames (code : Code) : List String :=
  code.insns.flatMap Insn.classNames ++ code.regions.filterMap Region.catchType

def MethodDecl.classNames (m : MethodDecl) : List String :=
  descriptorClasses m.desc ++ (m.code.map Code.classNames).getD []

/-- The classes that a class mentions, in order: its supertypes, then those of its fields, then
those of its methods. -/
def ClassSet.mentioned (set : ClassSet) (id : ClassId) : List String :=
  let c := set.classAt id
  c.supertypes ++ c.fields.flatMap (fun f => descriptorClasses (set.fieldAt f).desc) ++
    c.methods.flatMap fun m => (set.methodAt m).classNames

/-! ### Taking classes by name -/

/-- What can go wrong when classes are added by name. -/
inductive ClassSetError
  | duplicate (name : String)
  | unreadable (file : UnreadableFile)
  /-- The classpath has another class under the name. -/
  | misfiled (name declared : String)
  /-- A class has an ancestor that nobody provides. -/
  | unresolvedAncestor (className ancestor : String)
  deriving DecidableEq, Repr

def ClassSetError.message : ClassSetError → String
  | .duplicate name => "duplicate class " ++ name
  | .unreadable file => file.message
  | .misfiled name declared => "classpath entry for " ++ name ++ " declares class " ++ declared
  | .unresolvedAncestor className ancestor =>
    "ancestor " ++ ancestor ++ " of " ++ className ++ " cannot be resolved"

/-- Steps on a class set. A step that fails leaves what was done before it. -/
abbrev ClassSetM := EStateM ClassSetError ClassSet

/-- Whether a class belongs to the platform, so that it may be missing. -/
def isPlatformClass (name : String) : Bool :=
  ["java/", "javax/", "jdk/", "sun/", "com/sun/"].any fun p => p.toList.isPrefixOf name.toList

namespace ClassSet

/-- The class that the classpath has under a name. What is no class file is as good as missing. -/
def onClasspath? (set : ClassSet) (name : String) : Except UnreadableFile (Option ClassFile) :=
  match set.classpath.lookup name with
  | none => .ok none
  | some (.unreadable file) => .error file
  | some (.content bytes) => .ok (ClassFile.read bytes).toOption

/-- Looks up a class, and takes it from the classpath if it is not known. -/
def load (name : String) : ClassSetM (Option ClassId) := do
  let set ← get
  match set.find? name with
  | some id => pure (some id)
  | none =>
    match set.onClasspath? name with
    | .error file => throw (.unreadable file)
    | .ok none => pure none
    | .ok (some file) =>
      if file.header.name = name then
        match set.insert? file none true with
        | some added =>
          EStateM.set added
          pure (some set.nextClass)
        | none => throw (.duplicate name)
      else throw (.misfiled name file.header.name)

/-- Makes sure that a class is known, if need be by a stub. The result is the names that have to be
known because of that. -/
def loadOrStub (name : String) : ClassSetM (List String) := do
  let set ← get
  if (set.find? name).isSome then pure []
  else
    match ← load name with
    | some id =>
      let set ← get
      pure (set.classAt id).supertypes
    | none =>
      modify fun set => set.addClass (.stub name)
      pure []

/-- Makes sure that classes are known, in order. -/
def loadLevel : List String → ClassSetM (List String)
  | [] => pure []
  | name :: names => do
    let found ← loadOrStub name
    let rest ← loadLevel names
    pure (found ++ rest)

/-- Makes sure that classes and their supertypes are known, level by level. -/
def loadLevels : Nat → List String → ClassSetM Unit
  | 0, _ => pure ()
  | fuel + 1, names => do
    let next ← loadLevel names
    loadLevels fuel next

/-- Makes sure that every class is known that a candidate mentions. Each level but the last takes a
class from the classpath, so the number of levels is at most one more than that of its classes. -/
def loadMentioned : ClassSetM Unit := do
  let set ← get
  loadLevels (set.classpath.length + 1) (set.candidates.flatMap set.mentioned)

end ClassSet

end JvmPatch
