import JvmPatch.Pattern.Match

/-! The instruction that a pattern stands for when it is added. Weak names are replaced by what they
stand for; weak labels that stand for nothing yet get new labels. -/

set_option autoImplicit false

namespace JvmPatch

/-- Why a pattern does not stand for an instruction. -/
inductive InstantiateError
  | notAnInstruction
  | notARegion
  | wildcardLabel
  | wildcardOperand
  | labelTaken (name : String)
  | unbound (cause : UnboundName)
  | notAnArray (type : TypeDesc)
  deriving DecidableEq, Repr

def InstantiateError.message : InstantiateError → String
  | .notAnInstruction => "not a concrete instruction"
  | .notARegion => "not a try-catch"
  | .wildcardLabel => "wildcard label cannot be added"
  | .wildcardOperand => "wildcard operand cannot be added"
  | .labelTaken name => "label ~" ++ name ++ " cannot be bound"
  | .unbound cause => cause.message
  | .notAnArray type => "new-array-multi needs an array type, found " ++ type.text

/-- The scope, and the first label that is not used in the body. -/
structure Labelling where
  scope : Scope
  nextLabel : Nat
  deriving DecidableEq, Repr

/-- Steps that build instructions. -/
abbrev InstantiateM := EStateM InstantiateError Labelling

def Operand.value {α : Type} : Operand α → InstantiateM α
  | .any => throw .wildcardOperand
  | .is value => pure value

namespace BodyContext

def labelFor (cx : BodyContext) : LabelRef → InstantiateM Label
  | .any => throw .wildcardLabel
  | .weak name => do
    let names ← get
    match names.scope.label? cx.body name with
    | some bound => pure bound
    | none =>
      let label : Label := ⟨names.nextLabel⟩
      match names.scope.bindLabel? cx.body name label with
      | some scope =>
        set (Labelling.mk scope (names.nextLabel + 1))
        pure label
      | none =>
        set { names with nextLabel := names.nextLabel + 1 }
        throw (.labelTaken name)

/-- Reads a result that depends on the scope. -/
def mapped {α : Type} (f : Scope → Except UnboundName α) : InstantiateM α := do
  match f (← get).scope with
  | .ok x => pure x
  | .error e => throw (.unbound e)

def classOperandFor (cx : BodyContext) (type : TypeDesc) : InstantiateM String := do
  let type ← mapped fun scope => scope.mapType cx.classes type
  pure type.classOperand

/-- The name that a member has. A weak name that stands for nothing is used without its tilde. -/
def memberName (name : Ident) (bound : Option String) : String :=
  if name.weak then bound.getD name.name else name.name

/-- The instruction that a pattern stands for. -/
def instantiate (cx : BodyContext) : Pattern → InstantiateM Insn
  | .any | .tryCatch .. => throw .notAnInstruction
  | .label l => do pure (.label (← cx.labelFor l))
  | .single op => pure (.simple op)
  | .ret => pure (.simple cx.type.returnOp)
  | .pushInt v => do pure (.push (.int (← v.value)))
  | .pushLong v => do pure (.push (.long (← v.value)))
  | .pushFloat v => do pure (.push (.float (← v.value)))
  | .pushDouble v => do pure (.push (.double (← v.value)))
  | .pushString v => do pure (.push (.string (← v.value)))
  | .pushClass t => do pure (.push (.classRef (← cx.classOperandFor (← t.value))))
  | .var op index => do pure (.var op (← index.value))
  | .incInt index delta => do
    let index ← index.value
    let delta ← delta.value
    pure (.iinc index delta)
  | .jump op target => do pure (.jump op (← cx.labelFor target))
  | .tableSwitch low high default targets => do
    let low ← low.value
    let high ← high.value
    let default ← cx.labelFor default
    let targets ← targets.mapM cx.labelFor
    pure (.tableSwitch low high default targets)
  | .lookupSwitch default cases => do
    let default ← cx.labelFor default
    let pairs ← cases.mapM fun c => do
      let key ← c.1.value
      let target ← cx.labelFor c.2
      pure (key, target)
    pure (.lookupSwitch default pairs)
  | .field op owner name type desc => do
    let owner ← mapped fun scope => scope.mapClass cx.classes owner.text
    let names ← get
    let bound := (cx.classes.find? owner).bind fun id =>
      names.scope.field? cx.classes id (MemberKey.of name desc)
    let realName := memberName name (bound.map fun f => (cx.classes.fieldAt f).name)
    let type ← mapped fun scope => scope.mapType cx.classes type
    pure (.field op owner realName type.text)
  | .invoke op owner name type desc => do
    let owner ← mapped fun scope => scope.mapClass cx.classes owner.text
    let names ← get
    let id := cx.classes.find? owner
    let bound := id.bind fun id => names.scope.method? cx.classes id (MemberKey.of name desc)
    let realName := memberName name (bound.map fun m => (cx.classes.methodAt m).name)
    let isInterface :=
      op == Opcode.invokeinterface || id.any fun id => (cx.classes.classAt id).isInterface
    let type ← mapped fun scope => scope.mapMethod cx.classes type
    pure (.invoke op owner realName type.text isInterface)
  | .type op t => do pure (.type op (← cx.classOperandFor (← t.value)))
  | .newArray t => do
    let element ← t.value
    match element.arrayCode? with
    | some code => pure (.newArray code)
    | none => pure (.type Opcode.anewarray (← cx.classOperandFor element))
  | .newArrayMulti t dims => do
    let t ← t.value
    let type ← mapped fun scope => scope.mapType cx.classes t
    if type.isArray then
      let dims ← dims.value
      pure (.multiNewArray type.text dims)
    else throw (.notAnArray type)

def instantiateRegion (cx : BodyContext) : Pattern → InstantiateM Region
  | .tryCatch start stop handler catchType => do
    let catchType ←
      match catchType with
      | some type => do pure (some (← cx.classOperandFor type))
      | none => pure none
    let start ← cx.labelFor start
    let stop ← cx.labelFor stop
    let handler ← cx.labelFor handler
    pure ⟨start, stop, handler, catchType⟩
  | _ => throw .notARegion

end BodyContext

end JvmPatch
