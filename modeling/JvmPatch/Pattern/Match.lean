import JvmPatch.ClassSet.Hierarchy
import JvmPatch.Descriptor.Parser
import JvmPatch.Pattern.Basic
import JvmPatch.Scope.Types

/-! Matching a pattern with an instruction, or with the exception regions of a body. Weak names that
stand for nothing yet are bound on the way; a match that fails can leave such bindings. -/

set_option autoImplicit false

namespace JvmPatch

/-- The method body in which patterns are matched. -/
structure BodyContext where
  classes : ClassSet
  body : MethodId
  /-- The type of the method, which decides what `return` means. -/
  type : MethodDesc

namespace BodyContext

def matchLabel (cx : BodyContext) (pattern : LabelRef) (label : Label) : ScopeM Bool :=
  match pattern with
  | .any => pure true
  | .weak name => ScopeM.update fun scope => scope.bindLabel? cx.body name label

/-- Matches a type with the text of a type, if it can be read. -/
def matchType (cx : BodyContext) (pattern : TypeDesc) (found : Except DescriptorError TypeDesc) :
    ScopeM Bool :=
  match found with
  | .ok type => cx.classes.typesAgree pattern type
  | .error _ => pure false

def matchClassOperand (cx : BodyContext) (pattern : Operand TypeDesc) (operand : String) :
    ScopeM Bool :=
  match pattern with
  | .any => pure true
  | .is type => cx.matchType type (TypeDesc.parseOperand operand)

/-- Matches the class through which a member is used. -/
def matchOwner (cx : BodyContext) (pattern : Ident) (owner : String) : ScopeM Bool := do
  pure (← cx.classes.checkClassName pattern.text owner).accepted

/-- Matches the name of a field. A weak name is bound to the field that the reference means. -/
def matchFieldName (cx : BodyContext) (pattern : Ident) (patternDesc owner name desc : String) :
    ScopeM Bool := do
  if pattern.isWildcard then pure true
  else if !pattern.weak then pure (pattern.name == name)
  else
    match cx.classes.find? owner with
    | none => pure false
    | some owner =>
      match cx.classes.findField owner name desc with
      | none => pure false
      | some id =>
        let key := MemberKey.of pattern patternDesc
        match (← get).field? cx.classes owner key with
        | some bound => pure (bound == id)
        | none => ScopeM.update fun scope => scope.bindField? cx.classes owner key id

/-- Matches the name of a method. A weak name is bound to the method that the reference means. -/
def matchMethodName (cx : BodyContext) (pattern : Ident) (patternDesc owner name desc : String) :
    ScopeM Bool := do
  if pattern.isWildcard then pure true
  else if !pattern.weak then pure (pattern.name == name)
  else
    match cx.classes.find? owner with
    | none => pure false
    | some owner =>
      match cx.classes.findMethod owner name desc with
      | none => pure false
      | some id =>
        let key := MemberKey.of pattern patternDesc
        match (← get).method? cx.classes owner key with
        | some bound => pure (bound == id)
        | none => ScopeM.update fun scope => scope.bindMethod? cx.classes owner key id

/-- Matches a method type with the text of one, if it can be read. -/
def matchMethodType (cx : BodyContext) (pattern : MethodDesc) (desc : String) : ScopeM Bool :=
  match MethodDesc.parse desc with
  | .ok type => cx.classes.methodTypesAgree pattern type
  | .error _ => pure false

/-- Matches the targets of a table switch. Targets beyond those of the pattern are free. -/
def matchTargets (cx : BodyContext) (patterns : List LabelRef) (targets : List Label) :
    ScopeM Bool :=
  ScopeM.all (fun p => cx.matchLabel p.1 p.2) (patterns.zip targets)

/-- Matches the pairs of a lookup switch. Pairs beyond those of the pattern are free. -/
def matchCases (cx : BodyContext) (patterns : List (Operand Int32 × LabelRef))
    (pairs : List (Int32 × Label)) : ScopeM Bool :=
  ScopeM.all
    (fun p => if p.1.1.accepts p.2.1 then cx.matchLabel p.1.2 p.2.2 else pure false)
    (patterns.zip pairs)

/-- Goes on with a test if a condition holds. -/
def onlyIf (condition : Bool) (test : ScopeM Bool) : ScopeM Bool :=
  if condition then test else pure false

def matchInsn (cx : BodyContext) (pattern : Pattern) (insn : Insn) : ScopeM Bool :=
  match pattern, insn with
  | .label p, .label l => cx.matchLabel p l
  | .single expected, .simple op => pure (expected == op)
  | .ret, .simple op => pure (op == cx.type.returnOp)
  | .pushInt v, .push (.int value) => pure (v.accepts value)
  | .pushLong v, .push (.long value) => pure (v.accepts value)
  | .pushFloat v, .push (.float bits) => pure (v.accepts bits)
  | .pushDouble v, .push (.double bits) => pure (v.accepts bits)
  | .pushString v, .push (.string value) => pure (v.accepts value)
  | .pushClass t, .push (.classRef name) => cx.matchClassOperand t name
  | .var expected i, .var op index => pure (expected == op && i.accepts index)
  | .incInt i d, .iinc index delta => pure (i.accepts index && d.accepts delta)
  | .jump expected p, .jump op target => onlyIf (expected == op) (cx.matchLabel p target)
  | .tableSwitch lowest highest d ps, .tableSwitch low high default targets =>
    onlyIf (lowest.accepts low && highest.accepts high && ps.length ≤ targets.length)
      (.both (cx.matchLabel d default) (cx.matchTargets ps targets))
  | .lookupSwitch d ps, .lookupSwitch default pairs =>
    onlyIf (ps.length ≤ pairs.length)
      (.both (cx.matchLabel d default) (cx.matchCases ps pairs))
  | .field expected o n t d, .field op owner name desc =>
    onlyIf (expected == op)
      (.both (cx.matchOwner o owner)
        (.both (cx.matchFieldName n d owner name desc) (cx.matchType t (TypeDesc.parse desc))))
  | .invoke expected o n t d, .invoke op owner name desc _ =>
    onlyIf (expected == op)
      (.both (cx.matchOwner o owner)
        (.both (cx.matchMethodName n d owner name desc) (cx.matchMethodType t desc)))
  | .type expected t, .type op className =>
    onlyIf (expected == op) (cx.matchClassOperand t className)
  | .newArray t, .type op className =>
    onlyIf (op == Opcode.anewarray)
      (match t with
      | .any => pure true
      | .is element => onlyIf element.isReference (cx.matchClassOperand t className))
  | .newArray t, .newArray code =>
    match t with
    | .any => pure true
    | .is element => pure (element.arrayCode? == some code)
  | .newArrayMulti t n, .multiNewArray desc dims =>
    onlyIf (n.accepts dims)
      (match t with
      | .any => pure true
      | .is type => cx.matchType type (TypeDesc.parse desc))
  | _, _ => pure false

def matchCatchType (cx : BodyContext) (pattern : Option TypeDesc) (catchType : Option String) :
    ScopeM Bool :=
  match pattern, catchType with
  | none, none => pure true
  | some pattern, some name => cx.classes.typesAgree pattern (.object name)
  | _, _ => pure false

def matchRegion (cx : BodyContext) (start stop handler : LabelRef) (catchType : Option TypeDesc)
    (region : Region) : ScopeM Bool :=
  .both (cx.matchCatchType catchType region.catchType)
    (.both (cx.matchLabel start region.start)
      (.both (cx.matchLabel stop region.stop) (cx.matchLabel handler region.handler)))

/-- The first exception region that satisfies a test, from a place on. Only the region that
satisfies it leaves bindings. -/
def firstRegion (test : Region → ScopeM Bool) : Nat → List Region → ScopeM (Option Nat)
  | _, [] => pure none
  | place, region :: regions => fun scope =>
    match test region scope with
    | (true, scope) => (some place, scope)
    | (false, _) => firstRegion test (place + 1) regions scope

/-- The first exception region that matches a pattern. -/
def findRegion (cx : BodyContext) (pattern : Pattern) (regions : List Region) :
    ScopeM (Option Nat) :=
  match pattern with
  | .tryCatch start stop handler catchType =>
    firstRegion (cx.matchRegion start stop handler catchType) 0 regions
  | _ => pure none

end BodyContext

end JvmPatch
