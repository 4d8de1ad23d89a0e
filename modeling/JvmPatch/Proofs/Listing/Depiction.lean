import JvmPatch.Proofs.Listing.Labels
import JvmPatch.Proofs.Resolve.Alignment

/-! Patterns that say all about an instruction match it, whatever else has been bound, as long as
the names of labels have the meanings that they have in a listing. -/

set_option autoImplicit false

namespace JvmPatch

open ScopeM

/-- The classes in a type are spelled out. -/
def TypeDesc.IsStrong (t : TypeDesc) : Prop := ∀ n ∈ t.classNames, isWeakName n = false

/-- The classes in a method type are spelled out. -/
def MethodDesc.IsStrong (m : MethodDesc) : Prop := ∀ n ∈ m.classNames, isWeakName n = false

/-- A label of a pattern has the name of a label. -/
def LabelNames.Refers (names : LabelNames) (p : LabelRef) (l : Label) : Prop :=
  ∃ name, names.name? l = some name ∧ p = .weak name

/-- A pattern that says all about an instruction of a method, with the names that a listing gives to
labels. -/
inductive Pattern.Depicts (names : LabelNames) (type : MethodDesc) : Pattern → Insn → Prop
  | label {p l} : names.Refers p l → Depicts names type (.label p) (.label l)
  | single {op} : Depicts names type (.single op) (.simple op)
  | ret : Depicts names type .ret (.simple type.returnOp)
  | pushInt {value} : Depicts names type (.pushInt (.is value)) (.push (.int value))
  | pushLong {value} : Depicts names type (.pushLong (.is value)) (.push (.long value))
  | pushFloat {bits} : Depicts names type (.pushFloat (.is bits)) (.push (.float bits))
  | pushDouble {bits} : Depicts names type (.pushDouble (.is bits)) (.push (.double bits))
  | pushString {value} : Depicts names type (.pushString (.is value)) (.push (.string value))
  | pushClass {t className} : TypeDesc.parseOperand className = .ok t → t.IsStrong →
      Depicts names type (.pushClass (.is t)) (.push (.classRef className))
  | var {op index} : Depicts names type (.var op (.is index)) (.var op index)
  | incInt {index delta} : Depicts names type (.incInt (.is index) (.is delta)) (.iinc index delta)
  | jump {op p l} : names.Refers p l → Depicts names type (.jump op p) (.jump op l)
  | tableSwitch {low high p default ps targets} : names.Refers p default →
      List.Forall₂ names.Refers ps targets →
      Depicts names type (.tableSwitch (.is low) (.is high) p ps)
        (.tableSwitch low high default targets)
  | lookupSwitch {p default cases pairs} : names.Refers p default →
      List.Forall₂ (fun c q => c.1 = .is q.1 ∧ names.Refers c.2 q.2) cases pairs →
      Depicts names type (.lookupSwitch p cases) (.lookupSwitch default pairs)
  | field {op owner name t desc} : isWeakName owner = false → TypeDesc.parse desc = .ok t →
      t.IsStrong → Depicts names type (.field op ⟨owner, false⟩ ⟨name, false⟩ t desc)
        (.field op owner name desc)
  | invoke {op owner name t desc isInterface} : isWeakName owner = false →
      MethodDesc.parse desc = .ok t → t.IsStrong →
      Depicts names type (.invoke op ⟨owner, false⟩ ⟨name, false⟩ t desc)
        (.invoke op owner name desc isInterface)
  | type {op t className} : TypeDesc.parseOperand className = .ok t → t.IsStrong →
      Depicts names type (.type op (.is t)) (.type op className)
  | objectArray {t className} : TypeDesc.parseOperand className = .ok t → t.IsStrong →
      t.isReference = true →
        Depicts names type (.newArray (.is t)) (.type Opcode.anewarray className)
  | newArray {t code} :
      t.arrayCode? = some code → Depicts names type (.newArray (.is t)) (.newArray code)
  | multiNewArray {t desc dims} : TypeDesc.parse desc = .ok t → t.IsStrong →
      Depicts names type (.newArrayMulti (.is t) (.is dims)) (.multiNewArray desc dims)

/-! ### Types -/

namespace ClassSet

variable (set : ClassSet)

theorem run_checkClassName_self {name : String} (strong : isWeakName name = false) (scope : Scope) :
    (set.checkClassName name name).run scope = (.unchanged, scope) := by
  rw [run_checkClassName]
  split
  · rfl
  · rw [if_pos (by simp [strong]), if_pos rfl]

/-- Comparing a class name that is spelled out binds nothing. -/
theorem checkClassName_keeps {pattern : String} (strong : isWeakName pattern = false)
    (name : String) (scope : Scope) : ((set.checkClassName pattern name).run scope).2 = scope := by
  rw [run_checkClassName]
  split
  · rfl
  · rw [if_pos (by simp [strong])]

theorem typesAgree_keeps {t : TypeDesc} (strong : t.IsStrong) (u : TypeDesc) (scope : Scope) :
    ((set.typesAgree t u).run scope).2 = scope := by
  rw [typesAgree, run_bind]
  change ((set.checkType t u).run scope).2 = scope
  unfold checkType
  split
  · rfl
  · split
    · rename_i expected name isExpected isName
      exact set.checkClassName_keeps
        (strong expected (by simp [TypeDesc.classNames, isExpected])) name scope
    · rfl

theorem run_checkType_self {t : TypeDesc} (strong : t.IsStrong) (scope : Scope) :
    (set.checkType t t).run scope = (.unchanged, scope) := by
  unfold checkType
  rw [if_neg (not_not.2 rfl)]
  split
  · rename_i expected name isExpected isName
    obtain rfl := BaseType.object.inj (isExpected.symm.trans isName)
    exact set.run_checkClassName_self
      (strong expected (by simp [TypeDesc.classNames, isName])) scope
  · rw [if_pos rfl]
    rfl

theorem run_typesAgree_self {t : TypeDesc} (strong : t.IsStrong) (scope : Scope) :
    (set.typesAgree t t).run scope = (true, scope) := by
  rw [typesAgree, run_bind, set.run_checkType_self strong]
  rfl

theorem run_checkParams_self {ts : List TypeDesc} (strong : ∀ t ∈ ts, t.IsStrong)
    (soFar : TypeCheck) (scope : Scope) :
    ∃ check, (set.checkParams ts ts soFar).run scope = .ok check scope := by
  induction ts generalizing soFar with
  | nil => exact ⟨soFar, rfl⟩
  | cons t ts ih =>
    rw [run_checkParams_cons, set.run_checkType_self (strong t (.head _))]
    exact ih (fun u member => strong u (.tail _ member)) _

theorem run_checkMethodTypes_self {m : MethodDesc} (strong : m.IsStrong) (scope : Scope) :
    ∃ check, (set.checkMethodTypes m m).run scope = .ok check scope := by
  have params : ∀ t ∈ m.params, t.IsStrong := fun t member n named =>
    strong n (List.mem_append_left _ (List.mem_flatMap.2 ⟨t, member, named⟩))
  have result : ∀ t ∈ [m.result], t.IsStrong := fun t member n named => by
    obtain rfl := List.mem_singleton.1 member
    exact strong n (List.mem_append_right _ named)
  obtain ⟨first, checked⟩ := set.run_checkParams_self params .unchanged scope
  rw [checkMethodTypes, if_neg (not_not.2 rfl), EStateM.run_bind, checked]
  exact set.run_checkParams_self result first scope

theorem run_methodTypesAgree_self {m : MethodDesc} (strong : m.IsStrong) (scope : Scope) :
    (set.methodTypesAgree m m).run scope = (true, scope) := by
  obtain ⟨check, checked⟩ := set.run_checkMethodTypes_self strong scope
  change set.methodTypesAgree m m scope = _
  rw [methodTypesAgree, checked]

end ClassSet

/-! ### Matching -/

/-- A test succeeds and binds labels to the names that they have in a listing, those of the given
labels among them. -/
def ScopeM.Recognizes (names : LabelNames) (body : MethodId) (labels : List Label)
    (test : ScopeM Bool) :
    Prop :=
  ∀ scope : Scope, scope.FollowsNames names body → ∃ later, test.run scope = (true, later) ∧
    later.FollowsNames names body ∧ scope.BindsLabels body later ∧
      ∀ l ∈ labels, later.HasLabel body l

namespace ScopeM.Recognizes

variable {names : LabelNames} {body : MethodId} {ls ms : List Label}
  {test first second : ScopeM Bool}

theorem idle (same : ∀ scope, test.run scope = (true, scope)) : Recognizes names body [] test :=
  fun scope follows =>
    ⟨scope, same scope, follows, .refl body scope, fun _ member => by cases member⟩

protected theorem pure {b : Bool} (holds : b = true) : Recognizes names body [] (pure b) := by
  subst holds
  exact .idle fun _ => rfl

theorem both (one : Recognizes names body ls first) (two : Recognizes names body ms second) :
    Recognizes names body (ls ++ ms) (both first second) := by
  intro scope follows
  obtain ⟨middle, ran, follows, binds, has⟩ := one scope follows
  obtain ⟨later, ran', follows', binds', has'⟩ := two middle follows
  refine ⟨later, (run_both_of_true ran).trans ran', follows', binds.trans binds',
    fun l member => ?_⟩
  rcases List.mem_append.1 member with left | right
  · exact binds'.keeps l (has l left)
  · exact has' l right

theorem mono (recognizes : Recognizes names body ls test) (fewer : ∀ l ∈ ms, l ∈ ls) :
    Recognizes names body ms test := by
  intro scope follows
  obtain ⟨later, ran, follows, binds, has⟩ := recognizes scope follows
  exact ⟨later, ran, follows, binds, fun l member => has l (fewer l member)⟩

theorem all {α : Type} {test : α → ScopeM Bool} {xs : List α}
    (each : ∀ x ∈ xs, Recognizes names body [] (test x)) :
    Recognizes names body [] (all test xs) := by
  induction xs with
  | nil => exact .idle fun _ => rfl
  | cons x xs ih => exact (each x (.head _)).both (ih fun y member => each y (.tail _ member))

theorem onlyIf {condition : Bool} (holds : condition = true)
    (recognizes : Recognizes names body ls test) :
    Recognizes names body ls (BodyContext.onlyIf condition test) := by
  subst holds
  exact recognizes

end ScopeM.Recognizes

namespace BodyContext

variable {cx : BodyContext} {names : LabelNames}

theorem matchLabel_recognizes {p : LabelRef} {l : Label} (refers : names.Refers p l) :
    Recognizes names cx.body [l] (cx.matchLabel p l) := by
  obtain ⟨name, named, rfl⟩ := refers
  intro scope follows
  obtain ⟨later, bound, follows, binds, has⟩ := Scope.bindLabel?_of_name? named follows
  refine ⟨later, ?_, follows, binds, fun m member => ?_⟩
  · rw [matchLabel, run_update, bound]
    rfl
  · rwa [List.mem_singleton.1 member]

theorem matchLabel_idle {p : LabelRef} {l : Label} (refers : names.Refers p l) :
    Recognizes names cx.body [] (cx.matchLabel p l) :=
  (matchLabel_recognizes refers).mono fun _ member => by cases member

theorem matchType_recognizes {t : TypeDesc} (strong : t.IsStrong) :
    Recognizes names cx.body [] (cx.matchType t (.ok t)) :=
  .idle (cx.classes.run_typesAgree_self strong)

theorem matchClassOperand_recognizes {t : TypeDesc} {operand : String}
    (parsed : TypeDesc.parseOperand operand = .ok t) (strong : t.IsStrong) :
    Recognizes names cx.body [] (cx.matchClassOperand (.is t) operand) := by
  rw [matchClassOperand, parsed]
  exact matchType_recognizes strong

theorem matchOwner_recognizes {owner : String} (strong : isWeakName owner = false) :
    Recognizes names cx.body [] (cx.matchOwner ⟨owner, false⟩ owner) := by
  refine .idle fun scope => ?_
  have checked := cx.classes.run_checkClassName_self strong scope
  change (do pure (← cx.classes.checkClassName owner owner).accepted : ScopeM Bool).run scope = _
  rw [run_bind, checked]
  rfl

theorem matchFieldName_recognizes (owner name desc : String) :
    Recognizes names cx.body [] (cx.matchFieldName ⟨name, false⟩ desc owner name desc) := by
  refine .idle fun scope => ?_
  unfold matchFieldName
  split
  · rfl
  · rw [if_pos (by rfl)]
    exact congrArg (·, scope) (beq_self_eq_true name)

theorem matchMethodName_recognizes (owner name desc : String) :
    Recognizes names cx.body [] (cx.matchMethodName ⟨name, false⟩ desc owner name desc) := by
  refine .idle fun scope => ?_
  unfold matchMethodName
  split
  · rfl
  · rw [if_pos (by rfl)]
    exact congrArg (·, scope) (beq_self_eq_true name)

theorem matchMethodType_recognizes {m : MethodDesc} {desc : String}
    (parsed : MethodDesc.parse desc = .ok m) (strong : m.IsStrong) :
    Recognizes names cx.body [] (cx.matchMethodType m desc) := by
  rw [matchMethodType, parsed]
  exact .idle (cx.classes.run_methodTypesAgree_self strong)

/-- What depicts an instruction matches it. -/
theorem matchInsn_recognizes {p : Pattern} {insn : Insn} (depicts : p.Depicts names cx.type insn) :
    Recognizes names cx.body [] (cx.matchInsn p insn) := by
  have same {α : Type} [DecidableEq α] (x : α) : (x == x) = true := beq_self_eq_true x
  cases depicts with
  | label refers => exact matchLabel_idle refers
  | single | ret | pushInt | pushLong | pushFloat | pushDouble | pushString | var | incInt =>
    exact .pure (by simp [Operand.accepts])
  | pushClass parsed strong => exact matchClassOperand_recognizes parsed strong
  | jump refers => exact .onlyIf (same _) (matchLabel_idle refers)
  | tableSwitch refers targets =>
    refine .onlyIf ?_ ((matchLabel_idle refers).both (.all fun q member => ?_))
    · simp [Operand.accepts, targets.length_eq]
    · exact matchLabel_idle ((List.forall₂_iff_zip.1 targets).2 member)
  | lookupSwitch refers pairs =>
    refine .onlyIf ?_ ((matchLabel_idle refers).both (.all fun q member => ?_))
    · simp [pairs.length_eq]
    · obtain ⟨key, target⟩ := (List.forall₂_iff_zip.1 pairs).2 member
      rw [if_pos (by rw [key]; exact same _)]
      exact matchLabel_idle target
  | field strong parsed strongType =>
    refine .onlyIf (same _) ((matchOwner_recognizes strong).both
      ((matchFieldName_recognizes _ _ _).both ?_))
    rw [parsed]
    exact matchType_recognizes strongType
  | invoke strong parsed strongType =>
    exact .onlyIf (same _) ((matchOwner_recognizes strong).both
      ((matchMethodName_recognizes _ _ _).both (matchMethodType_recognizes parsed strongType)))
  | type parsed strong => exact .onlyIf (same _) (matchClassOperand_recognizes parsed strong)
  | objectArray parsed strong reference =>
    exact .onlyIf (same _) (.onlyIf reference (matchClassOperand_recognizes parsed strong))
  | newArray code => exact .pure (by simp [code])
  | multiNewArray parsed strong =>
    refine .onlyIf (same _) ?_
    rw [parsed]
    exact matchType_recognizes strong

end BodyContext

end JvmPatch
