import JvmPatch.Resolve.Assignment

/-! Checking an assignment: every class, field and method has to be as its block or line says, and
the lines of a method block have to be in the method. -/

set_option autoImplicit false

namespace JvmPatch

/-- Checks that bind weak names. What a check binds before it fails stays bound. -/
abbrev CheckM := EStateM Reason Scope

/-- Whether a block has a line that has to be found in the body. -/
def MethodBlock.hasSoughtLine (block : MethodBlock) : Bool :=
  block.insns.any fun l => l.mode != .add

namespace CheckM

/-- Fails unless a condition holds. -/
def require (condition : Bool) (reason : Reason) : CheckM Unit :=
  if condition then pure () else throw reason

/-- Fails unless a test succeeds. -/
def requireM (test : ScopeM Bool) (reason : Reason) : CheckM Unit := do
  let (accepted, scope) := test.run (← get)
  set scope
  require accepted reason

/-- Fails where a value cannot be had. -/
def orReason {ε α : Type} (reason : ε → Reason) : Except ε α → CheckM α
  | .ok x => pure x
  | .error e => throw (reason e)

end CheckM

namespace ClassSet

def checkName (ident : Ident) (name : String) : CheckM Unit :=
  .require (!ident.isStrong || ident.name == name) (.name ident name)

def checkKind (kind : ClassKind) (c : ClassEntry) : CheckM Unit :=
  match kind with
  | .ordinary => pure ()
  | .interface => .require c.isInterface (.notAnInterface c.name)
  | .enumeration => .require c.isEnum (.notAnEnum c.name)

def checkSuper (set : ClassSet) (c : ClassEntry) (line : SupertypeLine) : CheckM Unit :=
  if line.ident.isWildcard then pure ()
  else
    match c.superName with
    | none => throw (.noSuperclass c.name)
    | some name =>
      .requireM (do pure (← set.checkClassName line.ident.text name).accepted)
        (.superclass line.ident name)

/-- Lets a class name of a script match the first of several names that it can match. -/
def matchFirst (set : ClassSet) (pattern : String) : List String → ScopeM Bool
  | [] => pure false
  | name :: names => fun scope =>
    match (set.checkClassName pattern name).run scope with
    | (check, after) => if check.accepted then (true, after) else matchFirst set pattern names scope

def checkInterface (set : ClassSet) (c : ClassEntry) (line : SupertypeLine) : CheckM Unit :=
  if line.ident.isWildcard then .require (!c.interfaces.isEmpty) (.noInterfaces c.name)
  else .requireM (set.matchFirst line.ident.text c.interfaces) (.interface line.ident)

def checkClass (set : ClassSet) (block : ClassBlock) (id : ClassId) : CheckM Unit := do
  let c := set.classAt id
  checkName block.ident c.name
  checkKind block.kind c
  (block.supers.filter fun l => l.mode != .add).forM (set.checkSuper c)
  (block.interfaces.filter fun l => l.mode != .add).forM (set.checkInterface c)

def checkField (set : ClassSet) (line : FieldLine) (id : FieldId) : CheckM Unit := do
  let f := set.fieldAt id
  checkName line.ident f.name
  let type ← CheckM.orReason .descriptor (TypeDesc.parse f.desc)
  CheckM.requireM (set.typesAgree line.type type) (.type line.desc f.desc)
  CheckM.require (line.isStatic == f.access.hasAny Access.isStatic) (.modifier "static")
  CheckM.require (line.isPrivate == f.access.hasAny Access.isPrivate) (.modifier "private")
  match line.value with
  | none => pure ()
  | some expected => CheckM.require (f.value == some expected) (.value expected)

/-- Checks the name, the type and the modifiers of a method. The result is its type. -/
def checkMethodHead (set : ClassSet) (block : MethodBlock) (m : MethodEntry) :
    CheckM MethodDesc := do
  checkName block.ident m.name
  let type ← CheckM.orReason .descriptor (MethodDesc.parse m.desc)
  match (set.checkMethodTypes block.type type).run (← get) with
  | .error e scope =>
    EStateM.set scope
    throw (.methodType e)
  | .ok _ scope =>
    EStateM.set scope
    CheckM.require (block.isStatic == m.isStatic) (.modifier "static")
    CheckM.require (block.isPrivate == m.access.hasAny Access.isPrivate) (.modifier "private")
    CheckM.require (block.isProtected == m.access.hasAny Access.isProtected)
      (.modifier "protected")
    pure type

/-- Finds the lines of a block in a body. If they are not there, the scope forgets the body. -/
def checkBody (set : ClassSet) (block : MethodBlock) (type : MethodDesc) (body : MethodId)
    (code : Code) : CheckM Unit := do
  let scope ← get
  match walk ⟨set, body, type⟩ block.insns code scope with
  | .ok (found, places) => EStateM.set (found.recordMatch body places)
  | .error fault =>
    EStateM.set (scope.clearBody body)
    throw (.body fault)

/-- Checks a method that is seen through a class. -/
def checkMethod (set : ClassSet) (block : MethodBlock) (owner : ClassId) (id : MethodId) :
    CheckM Unit := do
  let m := set.methodAt id
  let type ← set.checkMethodHead block m
  if block.hasSoughtLine then
    match set.bodyOf owner id with
    | none => throw (.noBody m.name)
    | some body =>
      match (set.methodAt body).code with
      | none => throw (.noCode m.name)
      | some code => set.checkBody block type body code
  else pure ()

end ClassSet

/-- Checks with a count of those that have been passed. -/
abbrev VerifyM := EStateM Rejection Scope

/-- Passes a check, or turns the assignment down. -/
def VerifyM.pass (progress : Nat) (element : String) (check : CheckM Unit) : VerifyM Nat := do
  match check.run (← get) with
  | .ok _ scope =>
    set scope
    pure (progress + 1)
  | .error reason scope =>
    set scope
    throw ⟨progress, element, reason⟩

namespace ClassSet

/-- Checks what is assigned to a line or block, unless it is added. -/
def verifyElement {α : Type} (mode : Mode) (element : String) (kind : ElementKind)
    (check : α → CheckM Unit) (assigned : Option α) (progress : Nat) : VerifyM Nat :=
  if mode = .add then pure progress
  else
    match assigned with
    | none => throw ⟨progress, element, .notAssigned kind⟩
    | some x => .pass progress element (check x)

/-- Checks what is assigned to a class block and its members. -/
def verifyClass (set : ClassSet) (block : ClassBlock) (choice : ClassChoice) (progress : Nat) :
    VerifyM Nat :=
  if block.mode = .add then pure progress
  else
    match choice.cls with
    | none => throw ⟨progress, block.describe, .notAssigned .cls⟩
    | some id => do
      let progress ← VerifyM.pass progress block.describe (set.checkClass block id)
      let progress ← (block.fields.zip choice.fields).foldlM
        (fun n e => verifyElement e.1.mode (e.1.describe block) .field (set.checkField e.1) e.2 n)
        progress
      (block.methods.zip choice.methods).foldlM
        (fun n e =>
          verifyElement e.1.mode (e.1.describe block) .method (set.checkMethod e.1 id) e.2 n)
        progress

def verify (set : ClassSet) (script : Script) (assignment : Assignment) : VerifyM Unit := do
  let _ ← (script.classes.zip assignment).foldlM (fun n e => set.verifyClass e.1 e.2 n) 0

end ClassSet

end JvmPatch
