import JvmPatch.Apply.Body
import JvmPatch.Resolve.Search

/-! Applying a script to the classes that were assigned to it. All added classes come first; then
each class block is carried out, up to its method bodies; the bodies come last, so that they can use
everything that the script adds. -/

set_option autoImplicit false

namespace JvmPatch

structure ApplySummary where
  addedClasses : Nat := 0
  removedClasses : Nat := 0
  changedBodies : Nat := 0
  deriving DecidableEq, Repr

/-- The classes, the bindings and the counts while a script is applied. -/
structure ApplyState where
  classes : ClassSet
  scope : Scope
  summary : ApplySummary := {}
  deriving DecidableEq, Repr

/-- Steps that apply a script. A step that fails leaves what was done before it. -/
abbrev ApplyM := EStateM ApplyError ApplyState

/-- A method whose body has to be built or changed. -/
inductive PendingBody
  | added (id : MethodId) (block : MethodBlock)
  /-- The method was seen through the class. -/
  | matched (cls : ClassId) (handle : MethodId) (block : MethodBlock)
  deriving DecidableEq, Repr

namespace ApplyM

def modifyClasses (f : ClassSet → ClassSet) : ApplyM Unit :=
  modify fun s => { s with classes := f s.classes }

/-- Notes that a class has been modified. -/
def touch (id : ClassId) : ApplyM Unit :=
  modifyClasses fun set => set.modifyClass id fun c => { c with modified := true }

def count (f : ApplySummary → ApplySummary) : ApplyM Unit :=
  modify fun s => { s with summary := f s.summary }

/-- Takes over a new scope, if there is one. -/
def bindIfFree (f : ApplyState → Option Scope) : ApplyM Unit :=
  modify fun s => { s with scope := (f s).getD s.scope }

/-- Reads something that depends on the bindings, for a line. -/
def mapped {α : Type} (line : Nat) (f : ApplyState → Except UnboundName α) : ApplyM α := do
  match f (← get) with
  | .ok x => pure x
  | .error e => throw (.line line (.unbound e))

/-- The class that a name of a script means. -/
def mappedName (line : Nat) (ident : Ident) : ApplyM String :=
  mapped line fun s => s.scope.mapClass s.classes ident.text

def assigned {α : Type} (element : String) : Option α → ApplyM α
  | some x => pure x
  | none => throw (.neverAssigned element)

end ApplyM

def ClassKind.access : ClassKind → Access
  | .ordinary => Access.isPublic ||| Access.isSuper
  | .interface => Access.isPublic ||| Access.isInterface ||| Access.isAbstract
  | .enumeration => Access.isPublic ||| Access.isSuper ||| Access.isEnum

def MethodBlock.access (block : MethodBlock) : Access :=
  (if block.isPrivate then Access.isPrivate
  else if block.isProtected then Access.isProtected
  else Access.isPublic) ||| (if block.isStatic then Access.isStatic else 0)

/-- Whether a line of a block adds or removes something. -/
def MethodBlock.changesBody (block : MethodBlock) : Bool :=
  block.insns.any fun l => l.mode != .keep

def FieldLine.access (line : FieldLine) : Access :=
  (if line.isPrivate then Access.isPrivate else Access.isPublic) |||
    (if line.isStatic then Access.isStatic else 0)

/-- The flags of a matched method: those that its block declares in place of its own visibility. A
method without visibility keeps none if the block declares none. -/
def MethodBlock.accessOver (block : MethodBlock) (access : Access) : Access :=
  let declared :=
    if access &&& Access.visibility = 0 then block.access &&& ~~~Access.isPublic else block.access
  (access &&& ~~~(Access.visibility ||| Access.isStatic)) ||| declared

namespace ApplyM

def addClass (block : ClassBlock) : ApplyM ClassId := do
  let s ← get
  let name := block.ident.name
  if (s.classes.find? name).isSome then throw (.classExists block.line name)
  else
    let id := s.classes.nextClass
    let entry := ClassEntry.fresh name (some objectClass) block.kind.access
    set { s with classes := s.classes.addClass entry }
    if block.ident.isBindable then
      match s.scope.bindClass? block.ident.text id with
      | some scope => modify fun s => { s with scope := scope }
      | none => throw (.alreadyBound block.line block.ident)
    count fun n => { n with addedClasses := n.addedClasses + 1 }
    pure id

def addClasses : List (ClassBlock × ClassChoice) → ApplyM (List (ClassBlock × ClassChoice))
  | [] => pure []
  | (block, choice) :: rest => do
    let choice ←
      if block.mode = .add then do
        let id ← addClass block
        pure { choice with cls := some id }
      else pure choice
    let rest ← addClasses rest
    pure ((block, choice) :: rest)

def applySuper (line : Nat) (id : ClassId) (l : SupertypeLine) : ApplyM Unit := do
  let become := fun (name : String) =>
    modifyClasses fun set =>
      set.modifyClass id fun c => { c with superName := some name, modified := true }
  match l.mode with
  | .keep => pure ()
  | .add => become (← mappedName line l.ident)
  | .remove =>
    if l.ident.isWildcard then become objectClass
    else
      let name ← mappedName line l.ident
      let s ← get
      if (s.classes.classAt id).superName = some name then become objectClass

def applyInterface (line : Nat) (id : ClassId) (l : SupertypeLine) : ApplyM Unit := do
  let become := fun (f : List String → List String) =>
    modifyClasses fun set =>
      set.modifyClass id fun c => { c with interfaces := f c.interfaces, modified := true }
  match l.mode with
  | .keep => pure ()
  | .add =>
    let name ← mappedName line l.ident
    become fun names => if names.contains name then names else names ++ [name]
  | .remove =>
    let name ← mappedName line l.ident
    become fun names => names.filter (· != name)

/-- Adds the field of a line. If its name is bound in the class, it gets the name of that field. -/
def addField (id : ClassId) (l : FieldLine) : ApplyM FieldId := do
  let s ← get
  let key := MemberKey.of l.ident l.desc
  let bound := (s.scope.field? s.classes id key).map fun f => (s.classes.fieldAt f).name
  let type ← mapped l.line fun s => s.scope.mapType s.classes l.type
  let decl : FieldDecl := ⟨bound.getD l.ident.name, type.text, l.access, l.value⟩
  let field := s.classes.nextField
  modifyClasses fun set => set.addField id decl false
  if l.ident.isBindable then bindIfFree fun s => s.scope.bindField? s.classes id key field
  touch id
  pure field

/-- Carries out a field line. The result is the field that is assigned to it afterwards. -/
def applyField (block : ClassBlock) (id : ClassId) (l : FieldLine) (choice : Option FieldId) :
    ApplyM (Option FieldId) := do
  match l.mode with
  | .keep => pure choice
  | .remove =>
    let field ← assigned (l.describe block) choice
    modifyClasses fun set => set.removeField field
    touch id
    pure choice
  | .add => do pure (some (← addField id l))

/-- A method that is bound to a key and that an ancestor of a class declares. -/
def overridden? (s : ApplyState) (id : ClassId) (key : MemberKey) : Option MethodId :=
  let ancestors := s.classes.ancestors id
  (s.scope.methodsOf key).find? fun m => ancestors.contains (s.classes.methodAt m).declaredBy

/-- The method whose name an added method takes: the one that its name is bound to in the class or,
for a public instance method, in an ancestor. -/
def namesake? (s : ApplyState) (id : ClassId) (block : MethodBlock) : Option MethodId :=
  if block.ident.isBindable then
    let key := MemberKey.of block.ident block.desc
    match s.scope.method? s.classes id key with
    | some bound => some bound
    | none => if block.access = Access.isPublic then overridden? s id key else none
  else none

/-- Adds the method of a block, without its body. -/
def addMethod (id : ClassId) (block : MethodBlock) : ApplyM MethodId := do
  let type ← mapped block.line fun s => s.scope.mapMethod s.classes block.type
  let s ← get
  let namesake := namesake? s id block
  let name := (namesake.map fun m => (s.classes.methodAt m).name).getD block.ident.name
  let method := s.classes.nextMethod
  modifyClasses fun set => set.addMethod id ⟨name, type.text, block.access, [], some {}⟩ false
  if block.ident.isBindable ∧ namesake.isNone then
    bindIfFree fun s => s.scope.bindMethod? s.classes id (.of block.ident block.desc) method
  touch id
  pure method

/-- Gives a matched method the flags that its block declares. -/
def rewriteAccess (id : MethodId) (block : MethodBlock) : ApplyM Unit := do
  let s ← get
  let m := s.classes.methodAt id
  let access := block.accessOver m.access
  if access ≠ m.access then
    modifyClasses fun set => set.modifyMethod id fun m => { m with access := access }
    touch m.declaredBy

/-- Carries out a method block, apart from its body. The result is the method that is assigned to it
afterwards, and what remains to be done. -/
def applyMethod (owner : ClassBlock) (id : ClassId) (block : MethodBlock)
    (choice : Option MethodId) : ApplyM (Option MethodId × List PendingBody) := do
  match block.mode with
  | .add =>
    let method ← addMethod id block
    pure (some method, [.added method block])
  | .remove =>
    let handle ← assigned (block.describe owner) choice
    let s ← get
    let declared := (s.classes.bodyOf id handle).getD handle
    modifyClasses fun set => set.removeMethod declared
    touch (s.classes.methodAt declared).declaredBy
    pure (choice, [])
  | .keep =>
    let handle ← assigned (block.describe owner) choice
    rewriteAccess handle block
    pure (choice, [.matched id handle block])

def removeClass (id : ClassId) : ApplyM Unit := do
  modifyClasses fun set =>
    set.modifyClass id fun c => { c with removed := true, modified := true }
  count fun n => { n with removedClasses := n.removedClasses + 1 }

/-- Carries out a class block, apart from its method bodies. -/
def applyClass (block : ClassBlock) (choice : ClassChoice) :
    ApplyM (ClassChoice × List PendingBody) := do
  let id ← assigned block.describe choice.cls
  if block.mode = .remove then
    removeClass id
    pure (choice, [])
  else
    block.supers.forM (applySuper block.line id)
    block.interfaces.forM (applyInterface block.line id)
    let fields ← (block.fields.zip choice.fields).mapM fun e => applyField block id e.1 e.2
    let methods ← (block.methods.zip choice.methods).mapM fun e => applyMethod block id e.1 e.2
    pure (⟨choice.cls, fields, methods.map Prod.fst⟩, methods.flatMap Prod.snd)

/-- A body, if its labels are in order. -/
def checked (line : Nat) (code : Code) : ApplyM Code :=
  match code.checkLabels with
  | .ok _ => pure code
  | .error fault => throw (.labels line fault)

/-- Carries out the lines of a block. The result is what they change. -/
def runEdit (className method : String) (nextLabel : Nat) (m : EditM Unit) : ApplyM BodyEdit := do
  let s ← get
  match m.run { names := ⟨s.scope, nextLabel⟩ } with
  | .ok _ edit =>
    set { s with scope := edit.names.scope }
    pure edit
  | .error fault edit =>
    set { s with scope := edit.names.scope }
    match fault with
    | .instantiate line cause => throw (.line line (.instantiate cause))
    | .inconsistent line cause => throw (.inconsistent className method line cause)

def buildBody (id : MethodId) (block : MethodBlock) : ApplyM Unit := do
  let s ← get
  let m := s.classes.methodAt id
  match MethodDesc.parse m.desc with
  | .error e => throw (.line block.line (.descriptor e))
  | .ok type =>
    let cx : BodyContext := ⟨s.classes, id, type⟩
    let edit ← runEdit "" m.name 0 (block.insns.forM cx.addLine)
    let code ← checked block.line (edit.apply {})
    modifyClasses fun set => set.modifyMethod id fun m => { m with code := some code }

def changeBody (cls : ClassId) (handle : MethodId) (block : MethodBlock) : ApplyM Unit := do
  let s ← get
  let handleName := (s.classes.methodAt handle).name
  match s.classes.bodyOf cls handle with
  | none => throw (.noBody handleName)
  | some body =>
    let m := s.classes.methodAt body
    match MethodDesc.require m.desc with
    | .error e => throw (.methodDesc e)
    | .ok type =>
      match m.code with
      | none => throw (.noCode m.name m.desc)
      | some code =>
        let cx : BodyContext := ⟨s.classes, body, type⟩
        let places := (s.scope.methodMatch? body).getD {}
        let edit ← runEdit (s.classes.classAt cls).name handleName code.nextLabel
          (cx.editLines code.insns places 0 block.insns)
        if block.changesBody then
          let code ← checked block.line (edit.apply code)
          modifyClasses fun set => set.modifyMethod body fun m => { m with code := some code }
          touch m.declaredBy
          count fun n => { n with changedBodies := n.changedBodies + 1 }

/-- Builds or changes a body. A block without lines leaves the body alone. -/
def applyBody : PendingBody → ApplyM Unit
  | .added id block => buildBody id block
  | .matched cls handle block =>
    if block.insns.isEmpty then pure () else changeBody cls handle block

/-- Carries out the class blocks of a script. The result is the assignment afterwards. -/
def applyAll (script : Script) (assignment : Assignment) : ApplyM Assignment := do
  let blocks ← addClasses (script.classes.zip assignment)
  let applied ← blocks.mapM fun e => applyClass e.1 e.2
  (applied.flatMap Prod.snd).forM applyBody
  pure (applied.map Prod.fst)

end ApplyM

/-- What applying a script gives. -/
structure Applied where
  classes : ClassSet
  scope : Scope
  assignment : Assignment
  summary : ApplySummary
  deriving DecidableEq, Repr

/-- Applies a script with an accepted assignment. -/
def ClassSet.apply (set : ClassSet) (script : Script) (resolution : Resolution) :
    Except ApplyError Applied :=
  match (ApplyM.applyAll script resolution.assignment).run ⟨set, resolution.scope, {}⟩ with
  | .ok assignment s => .ok ⟨s.classes, s.scope, assignment, s.summary⟩
  | .error e _ => .error e

end JvmPatch
