import JvmPatch.Pattern.Match
import JvmPatch.Proofs.Scope.Types

/-! A pattern that has matched an instruction matches it again with more bindings and more classes.
Only for weak names of members this depends on what the classes declare then. -/

set_option autoImplicit false

namespace JvmPatch

open ScopeM

namespace ClassSet

/-- The field that a reference means, with the class through which it is used. -/
def meantField? (set : ClassSet) (owner name desc : String) : Option (ClassId × FieldId) :=
  (set.find? owner).bind fun cls => (set.findField cls name desc).map (cls, ·)

/-- The method that a reference means, with the class through which it is used. -/
def meantMethod? (set : ClassSet) (owner name desc : String) : Option (ClassId × MethodId) :=
  (set.find? owner).bind fun cls => (set.findMethod cls name desc).map (cls, ·)

/-- The reference means a field that the weak name stands for in the class, or can be bound to. -/
def FieldFits (set : ClassSet) (scope : Scope) (key : MemberKey) (owner name desc : String) :
    Prop :=
  ∃ cls field, set.meantField? owner name desc = some (cls, field) ∧
    (scope.field? set cls key = some field ∨
      scope.field? set cls key = none ∧ ∀ bound, scope.fields.get? field = some bound → bound = key)

/-- The reference means a method that the weak name stands for in the class, or can be bound to. -/
def MethodFits (set : ClassSet) (scope : Scope) (key : MemberKey) (owner name desc : String) :
    Prop :=
  ∃ cls method, set.meantMethod? owner name desc = some (cls, method) ∧
    (scope.method? set cls key = some method ∨
      scope.method? set cls key = none ∧
        ∀ bound, scope.methods.get? method = some bound → bound = key)

/-- If the pattern has a weak name for a member, the name fits the member that the instruction
means. -/
def MemberFits (set : ClassSet) (scope : Scope) (pattern : Pattern) (insn : Insn) : Prop :=
  match pattern, insn with
  | .field _ _ name _ patternDesc, .field _ owner fieldName desc =>
    name.isBindable = true → set.FieldFits scope (.of name patternDesc) owner fieldName desc
  | .invoke _ _ name _ patternDesc, .invoke _ owner methodName desc _ =>
    name.isBindable = true → set.MethodFits scope (.of name patternDesc) owner methodName desc
  | _, _ => True

theorem FieldFits.congr {set : ClassSet} {scope later : Scope} {key : MemberKey}
    {owner name desc : String} (same : later.fields = scope.fields)
    (fits : set.FieldFits scope key owner name desc) :
    set.FieldFits later key owner name desc := by
  simpa only [FieldFits, Scope.field?, Scope.fieldsOf, same] using fits

theorem MethodFits.congr {set : ClassSet} {scope later : Scope} {key : MemberKey}
    {owner name desc : String} (same : later.methods = scope.methods)
    (fits : set.MethodFits scope key owner name desc) :
    set.MethodFits later key owner name desc := by
  simpa only [MethodFits, Scope.method?, Scope.methodsOf, same] using fits

end ClassSet

theorem Scope.bindField?_isSome_of_unused {scope : Scope} {set : ClassSet} {owner : ClassId}
    {key : MemberKey} {id : FieldId} (unused : scope.field? set owner key = none) :
    (scope.bindField? set owner key id).isSome = true ↔
      ∀ bound, scope.fields.get? id = some bound → bound = key := by
  unfold bindField?
  cases scope.fields.get? id with
  | none => simp [unused]
  | some bound =>
    by_cases same : bound = key <;> simp [same]

theorem Scope.bindMethod?_isSome_of_unused {scope : Scope} {set : ClassSet} {owner : ClassId}
    {key : MemberKey} {id : MethodId} (unused : scope.method? set owner key = none) :
    (scope.bindMethod? set owner key id).isSome = true ↔
      ∀ bound, scope.methods.get? id = some bound → bound = key := by
  unfold bindMethod?
  cases scope.methods.get? id with
  | none => simp [unused]
  | some bound =>
    by_cases same : bound = key <;> simp [same]

namespace BodyContext

variable {cx later : BodyContext}

/-- The same body, among classes that have kept their names. -/
structure Continues (cx later : BodyContext) : Prop where
  names : cx.classes.KeepsNames later.classes
  body : later.body = cx.body
  type : later.type = cx.type

theorem matchLabel_widening (cx : BodyContext) (pattern : LabelRef) (label : Label)
    (set : ClassSet) : Widening set (cx.matchLabel pattern label) := by
  cases pattern with
  | any => exact .pure set true
  | weak name => exact .update fun _ _ bound => Scope.bindLabel?_widens bound

theorem matchLabel_recurs (continues : cx.Continues later) (pattern : LabelRef) (label : Label) :
    Recurs cx.classes (cx.matchLabel pattern label) (later.matchLabel pattern label) := by
  cases pattern with
  | any => exact .pure _ id
  | weak name =>
    intro scope found success _ final extended
    simp only [matchLabel, run_update, continues.body] at success ⊢
    obtain ⟨isSome, rfl⟩ := Prod.mk.inj success
    obtain ⟨next, bound⟩ := Option.isSome_iff_exists.1 isSome
    rw [bound, Option.getD_some] at extended
    have stays := extended.labels _ _ (Scope.bindLabel?_eq_some bound).1
    have again : final.bindLabel? cx.body name label = some final := by
      rw [Scope.bindLabel?, Scope.label?, stays]
      simp
    rw [again]
    rfl

theorem matchType_widening (cx : BodyContext) (pattern : TypeDesc)
    (found : Except DescriptorError TypeDesc) :
    Widening cx.classes (cx.matchType pattern found) := by
  cases found with
  | error e => exact .pure _ false
  | ok type => exact cx.classes.typesAgree_widening pattern type

theorem matchType_recurs (continues : cx.Continues later) (pattern : TypeDesc)
    (found : Except DescriptorError TypeDesc) :
    Recurs cx.classes (cx.matchType pattern found) (later.matchType pattern found) := by
  cases found with
  | error e => exact .pure _ id
  | ok type => exact ClassSet.typesAgree_recurs continues.names pattern type

theorem matchClassOperand_widening (cx : BodyContext) (pattern : Operand TypeDesc)
    (operand : String) : Widening cx.classes (cx.matchClassOperand pattern operand) := by
  cases pattern with
  | any => exact .pure _ true
  | is type => exact cx.matchType_widening type _

theorem matchClassOperand_recurs (continues : cx.Continues later) (pattern : Operand TypeDesc)
    (operand : String) :
    Recurs cx.classes (cx.matchClassOperand pattern operand)
      (later.matchClassOperand pattern operand) := by
  cases pattern with
  | any => exact .pure _ id
  | is type => exact matchType_recurs continues type _

theorem matchOwner_widening (cx : BodyContext) (pattern : Ident) (owner : String) :
    Widening cx.classes (cx.matchOwner pattern owner) :=
  (cx.classes.checkClassName_widening _ _).bind fun _ => .pure _ _

theorem matchOwner_recurs (continues : cx.Continues later) (pattern : Ident) (owner : String) :
    Recurs cx.classes (cx.matchOwner pattern owner) (later.matchOwner pattern owner) :=
  ClassSet.recurs_of_agrees (ClassSet.checkClassName_agrees continues.names pattern.text owner)

/-- The test of a weak name of a member: what the reference means, if anything, is what the name
stands for, or the name can be bound to it. -/
def nameTest {α : Type} [DecidableEq α] (meant : Option (ClassId × α))
    (standsFor : ClassId → Scope → Option α) (bind : ClassId → α → Scope → Option Scope) :
    ScopeM Bool := do
  match meant with
  | none => pure false
  | some (cls, x) =>
    match standsFor cls (← get) with
    | some bound => pure (bound == x)
    | none => ScopeM.update (bind cls x)

theorem run_nameTest {α : Type} [DecidableEq α] (cls : ClassId) (x : α)
    (standsFor : ClassId → Scope → Option α) (bind : ClassId → α → Scope → Option Scope)
    (scope : Scope) :
    (nameTest (some (cls, x)) standsFor bind).run scope =
      match standsFor cls scope with
      | some bound => (bound == x, scope)
      | none => ((bind cls x scope).isSome, (bind cls x scope).getD scope) := by
  rw [nameTest]
  change (match standsFor cls scope with
    | some bound => pure (bound == x)
    | none => ScopeM.update (bind cls x) : ScopeM Bool).run scope = _
  cases standsFor cls scope with
  | some bound => rfl
  | none => exact run_update _ _

theorem nameTest_iff {α : Type} [DecidableEq α] (meant : Option (ClassId × α))
    (standsFor : ClassId → Scope → Option α) (bind : ClassId → α → Scope → Option Scope)
    (scope : Scope) :
    ((nameTest meant standsFor bind).run scope).1 = true ↔
      ∃ cls x, meant = some (cls, x) ∧
        (standsFor cls scope = some x ∨
          standsFor cls scope = none ∧ (bind cls x scope).isSome = true) := by
  cases meant with
  | none => exact ⟨fun h => (Bool.false_ne_true h).elim, fun ⟨_, _, h, _⟩ => nomatch h⟩
  | some e =>
    obtain ⟨cls, x⟩ := e
    rw [run_nameTest]
    simp only [Option.some.injEq, Prod.mk.injEq]
    constructor
    · intro success
      refine ⟨cls, x, ⟨rfl, rfl⟩, ?_⟩
      cases h : standsFor cls scope with
      | some bound => exact .inl (by simpa [h] using success)
      | none => exact .inr ⟨rfl, by simpa [h] using success⟩
    · rintro ⟨_, _, ⟨rfl, rfl⟩, h | ⟨h, free⟩⟩
      · simp [h]
      · simpa [h] using free

theorem nameTest_widening {α : Type} [DecidableEq α] (set : ClassSet)
    (meant : Option (ClassId × α)) (standsFor : ClassId → Scope → Option α)
    (bind : ClassId → α → Scope → Option Scope)
    (widens : ∀ cls x scope next, bind cls x scope = some next → Scope.Widens set scope next) :
    Widening set (nameTest meant standsFor bind) := by
  intro scope
  cases meant with
  | none => exact .refl set scope
  | some e =>
    obtain ⟨cls, x⟩ := e
    rw [run_nameTest]
    cases standsFor cls scope with
    | some bound => exact .refl set scope
    | none =>
      cases bound : bind cls x scope with
      | none => exact .refl set scope
      | some next => exact widens cls x scope next bound

theorem matchFieldName_eq (cx : BodyContext) (pattern : Ident)
    (patternDesc owner name desc : String) :
    cx.matchFieldName pattern patternDesc owner name desc =
      if pattern.isBindable then
        nameTest (cx.classes.meantField? owner name desc)
          (fun cls scope => scope.field? cx.classes cls (.of pattern patternDesc))
          fun cls id scope => scope.bindField? cx.classes cls (.of pattern patternDesc) id
      else pure (pattern.isWildcard || pattern.name == name) := by
  unfold matchFieldName Ident.isBindable ClassSet.meantField?
  cases pattern.isWildcard with
  | true => cases pattern.weak <;> rfl
  | false =>
    cases pattern.weak with
    | false => rfl
    | true =>
      cases cx.classes.find? owner with
      | none => rfl
      | some cls =>
        cases found : cx.classes.findField cls name desc with
        | none => simp [found, nameTest]
        | some id =>
          simp only [found, nameTest, Option.bind_some, Option.map_some]
          refine congrArg (bind get) (funext fun scope => ?_)
          cases scope.field? cx.classes cls (.of pattern patternDesc) <;> rfl

theorem matchMethodName_eq (cx : BodyContext) (pattern : Ident)
    (patternDesc owner name desc : String) :
    cx.matchMethodName pattern patternDesc owner name desc =
      if pattern.isBindable then
        nameTest (cx.classes.meantMethod? owner name desc)
          (fun cls scope => scope.method? cx.classes cls (.of pattern patternDesc))
          fun cls id scope => scope.bindMethod? cx.classes cls (.of pattern patternDesc) id
      else pure (pattern.isWildcard || pattern.name == name) := by
  unfold matchMethodName Ident.isBindable ClassSet.meantMethod?
  cases pattern.isWildcard with
  | true => cases pattern.weak <;> rfl
  | false =>
    cases pattern.weak with
    | false => rfl
    | true =>
      cases cx.classes.find? owner with
      | none => rfl
      | some cls =>
        cases found : cx.classes.findMethod cls name desc with
        | none => simp [found, nameTest]
        | some id =>
          simp only [found, nameTest, Option.bind_some, Option.map_some]
          refine congrArg (bind get) (funext fun scope => ?_)
          cases scope.method? cx.classes cls (.of pattern patternDesc) <;> rfl

theorem matchFieldName_widening (cx : BodyContext) (pattern : Ident)
    (patternDesc owner name desc : String) (set : ClassSet) :
    Widening set (cx.matchFieldName pattern patternDesc owner name desc) := by
  rw [matchFieldName_eq]
  split
  · exact nameTest_widening _ _ _ _ fun _ _ _ _ bound => Scope.bindField?_widens bound
  · exact .pure _ _

theorem matchMethodName_widening (cx : BodyContext) (pattern : Ident)
    (patternDesc owner name desc : String) (set : ClassSet) :
    Widening set (cx.matchMethodName pattern patternDesc owner name desc) := by
  rw [matchMethodName_eq]
  split
  · exact nameTest_widening _ _ _ _ fun _ _ _ _ bound => Scope.bindMethod?_widens bound
  · exact .pure _ _

/-- The name of a field matches if it is strong and the same, or weak and fits. -/
theorem matchFieldName_iff (cx : BodyContext) (pattern : Ident)
    (patternDesc owner name desc : String) (scope : Scope) :
    ((cx.matchFieldName pattern patternDesc owner name desc).run scope).1 = true ↔
      (pattern.isBindable = true →
        cx.classes.FieldFits scope (.of pattern patternDesc) owner name desc) ∧
      (pattern.isBindable = false → (pattern.isWildcard || pattern.name == name) = true) := by
  rw [matchFieldName_eq]
  cases pattern.isBindable with
  | false =>
    simp only [Bool.false_eq_true, if_false, false_implies, true_and, forall_const]
    exact Iff.rfl
  | true =>
    rw [if_pos rfl, nameTest_iff]
    simp only [forall_const, Bool.true_eq_false, false_implies, and_true, ClassSet.FieldFits]
    refine exists_congr fun cls => exists_congr fun id => and_congr_right fun _ =>
      or_congr_right (and_congr_right fun unused => ?_)
    exact Scope.bindField?_isSome_of_unused unused

/-- The name of a method matches if it is strong and the same, or weak and fits. -/
theorem matchMethodName_iff (cx : BodyContext) (pattern : Ident)
    (patternDesc owner name desc : String) (scope : Scope) :
    ((cx.matchMethodName pattern patternDesc owner name desc).run scope).1 = true ↔
      (pattern.isBindable = true →
        cx.classes.MethodFits scope (.of pattern patternDesc) owner name desc) ∧
      (pattern.isBindable = false → (pattern.isWildcard || pattern.name == name) = true) := by
  rw [matchMethodName_eq]
  cases pattern.isBindable with
  | false =>
    simp only [Bool.false_eq_true, if_false, false_implies, true_and, forall_const]
    exact Iff.rfl
  | true =>
    rw [if_pos rfl, nameTest_iff]
    simp only [forall_const, Bool.true_eq_false, false_implies, and_true, ClassSet.MethodFits]
    refine exists_congr fun cls => exists_congr fun id => and_congr_right fun _ =>
      or_congr_right (and_congr_right fun unused => ?_)
    exact Scope.bindMethod?_isSome_of_unused unused

theorem matchMethodType_widening (cx : BodyContext) (pattern : MethodDesc) (desc : String) :
    Widening cx.classes (cx.matchMethodType pattern desc) := by
  unfold matchMethodType
  split
  · exact cx.classes.methodTypesAgree_widening _ _
  · exact .pure _ _

theorem matchMethodType_recurs (continues : cx.Continues later) (pattern : MethodDesc)
    (desc : String) :
    Recurs cx.classes (cx.matchMethodType pattern desc) (later.matchMethodType pattern desc) := by
  unfold matchMethodType
  split
  · exact ClassSet.methodTypesAgree_recurs continues.names _ _
  · exact .pure _ id

theorem matchTargets_widening (cx : BodyContext) (patterns : List LabelRef)
    (targets : List Label) : Widening cx.classes (cx.matchTargets patterns targets) :=
  .all fun _ _ => cx.matchLabel_widening _ _ _

theorem matchTargets_recurs (continues : cx.Continues later) (patterns : List LabelRef)
    (targets : List Label) :
    Recurs cx.classes (cx.matchTargets patterns targets) (later.matchTargets patterns targets) :=
  .all (fun _ _ => matchLabel_recurs continues _ _) fun _ _ => cx.matchLabel_widening _ _ _

theorem onlyIf_widening (set : ClassSet) (condition : Bool) {test : ScopeM Bool}
    (widens : Widening set test) : Widening set (onlyIf condition test) := by
  cases condition with
  | true => exact widens
  | false => exact .pure _ _

theorem onlyIf_recurs (set : ClassSet) (condition : Bool) {test again : ScopeM Bool}
    (recurs : Recurs set test again) :
    Recurs set (onlyIf condition test) (onlyIf condition again) := by
  cases condition with
  | true => exact recurs
  | false => exact .pure _ id

theorem matchCases_widening (cx : BodyContext) (patterns : List (Operand Int32 × LabelRef))
    (pairs : List (Int32 × Label)) : Widening cx.classes (cx.matchCases patterns pairs) :=
  .all fun _ _ => onlyIf_widening _ _ (cx.matchLabel_widening _ _ _)

theorem matchCases_recurs (continues : cx.Continues later)
    (patterns : List (Operand Int32 × LabelRef)) (pairs : List (Int32 × Label)) :
    Recurs cx.classes (cx.matchCases patterns pairs) (later.matchCases patterns pairs) :=
  .all (fun _ _ => onlyIf_recurs _ _ (matchLabel_recurs continues _ _))
    fun _ _ => onlyIf_widening _ _ (cx.matchLabel_widening _ _ _)

theorem matchInsn_widening (cx : BodyContext) (pattern : Pattern) (insn : Insn) :
    Widening cx.classes (cx.matchInsn pattern insn) := by
  unfold matchInsn
  split
  case h_1 => exact cx.matchLabel_widening _ _ _
  case h_9 => exact cx.matchClassOperand_widening _ _
  case h_12 => exact onlyIf_widening _ _ (cx.matchLabel_widening _ _ _)
  case h_13 =>
    exact onlyIf_widening _ _ ((cx.matchLabel_widening _ _ _).both (cx.matchTargets_widening _ _))
  case h_14 =>
    exact onlyIf_widening _ _ ((cx.matchLabel_widening _ _ _).both (cx.matchCases_widening _ _))
  case h_15 =>
    exact onlyIf_widening _ _ ((cx.matchOwner_widening _ _).both
      ((cx.matchFieldName_widening _ _ _ _ _ _).both (cx.matchType_widening _ _)))
  case h_16 =>
    exact onlyIf_widening _ _ ((cx.matchOwner_widening _ _).both
      ((cx.matchMethodName_widening _ _ _ _ _ _).both (cx.matchMethodType_widening _ _)))
  case h_17 => exact onlyIf_widening _ _ (cx.matchClassOperand_widening _ _)
  case h_18 =>
    refine onlyIf_widening _ _ ?_
    split
    · exact .pure _ _
    · exact onlyIf_widening _ _ (cx.matchClassOperand_widening _ _)
  case h_19 => split <;> exact .pure _ _
  case h_20 =>
    refine onlyIf_widening _ _ ?_
    split
    · exact .pure _ _
    · exact cx.matchType_widening _ _
  all_goals exact .pure _ _

/-- Once a test has succeeded, another one succeeds with any further bindings that fit. -/
def Repeats (set : ClassSet) (test again : ScopeM Bool) (fits : Scope → Prop) : Prop :=
  ∀ scope found, test.run scope = (true, found) → found.Knows set →
    ∀ final : Scope, final.Extends found → fits final → (again.run final).1 = true

theorem Repeats.of_recurs {set : ClassSet} {test again : ScopeM Bool} {fits : Scope → Prop}
    (recurs : Recurs set test again) : Repeats set test again fits := by
  intro scope found success knows final extended _
  rw [recurs scope found success knows final extended]

theorem Repeats.onlyIf {set : ClassSet} (condition : Bool) {test again : ScopeM Bool}
    {fits : Scope → Prop} (repeats : Repeats set test again fits) :
    Repeats set (onlyIf condition test) (onlyIf condition again) fits := by
  cases condition with
  | true => exact repeats
  | false => exact .of_recurs (.pure _ id)

/-- The tests of a reference to a member: of the class, of the name and of the type. -/
theorem Repeats.member {set set' : ClassSet} {owner owner' name name' type type' : ScopeM Bool}
    {fits : Scope → Prop} (ownerRecurs : Recurs set owner owner')
    (typeRecurs : Recurs set type type') (nameWidens : Widening set name)
    (nameWidens' : Widening set' name') (typeWidens : Widening set type)
    (nameFits : ∀ scope found, name.run scope = (true, found) →
      ∀ final, fits final → (name'.run final).1 = true) :
    Repeats set (both owner (both name type)) (both owner' (both name' type')) fits := by
  intro scope found success knows final extended fit
  obtain ⟨scope₁, one, success⟩ := run_both_eq_true success
  obtain ⟨scope₂, two, three⟩ := run_both_eq_true success
  have second := nameWidens scope₁
  have third := typeWidens scope₂
  rw [two] at second
  rw [three] at third
  have knows₂ := third.knowsBefore knows
  have one' := ownerRecurs _ _ one (second.knowsBefore knows₂) final
    ((extended.trans third.extends_).trans second.extends_)
  have two' := nameFits _ _ two final fit
  have second' := (nameWidens' final).extends_
  have three' := typeRecurs _ _ three knows _ (second'.trans extended)
  rw [run_both_of_true one']
  have named : name'.run final = (true, (name'.run final).2) := Prod.ext two' rfl
  rw [run_both_of_true named, three']

/-- A pattern that has matched matches again if its weak names of members fit. -/
theorem matchInsn_repeats (continues : cx.Continues later) (pattern : Pattern) (insn : Insn) :
    Repeats cx.classes (cx.matchInsn pattern insn) (later.matchInsn pattern insn)
      fun scope => later.classes.MemberFits scope pattern insn := by
  unfold matchInsn
  split
  case h_1 => exact .of_recurs (matchLabel_recurs continues _ _)
  case h_3 => exact .of_recurs (.pure _ fun h => by rwa [continues.type])
  case h_9 => exact .of_recurs (matchClassOperand_recurs continues _ _)
  case h_12 => exact .of_recurs (onlyIf_recurs _ _ (matchLabel_recurs continues _ _))
  case h_13 =>
    exact .of_recurs (onlyIf_recurs _ _ ((matchLabel_recurs continues _ _).both
      (matchTargets_recurs continues _ _) (cx.matchTargets_widening _ _)))
  case h_14 =>
    exact .of_recurs (onlyIf_recurs _ _ ((matchLabel_recurs continues _ _).both
      (matchCases_recurs continues _ _) (cx.matchCases_widening _ _)))
  case h_15 =>
    refine .onlyIf _ (.member (matchOwner_recurs continues _ _) (matchType_recurs continues _ _)
      (cx.matchFieldName_widening _ _ _ _ _ _)
      (later.matchFieldName_widening _ _ _ _ _ later.classes) (cx.matchType_widening _ _)
        fun scope found success final fit => ?_)
    have before := (cx.matchFieldName_iff _ _ _ _ _ scope).1 (by rw [success])
    exact (later.matchFieldName_iff _ _ _ _ _ final).2 ⟨fit, before.2⟩
  case h_16 =>
    refine .onlyIf _ (.member (matchOwner_recurs continues _ _)
      (matchMethodType_recurs continues _ _) (cx.matchMethodName_widening _ _ _ _ _ _)
      (later.matchMethodName_widening _ _ _ _ _ later.classes) (cx.matchMethodType_widening _ _)
      fun scope found success final fit => ?_)
    have before := (cx.matchMethodName_iff _ _ _ _ _ scope).1 (by rw [success])
    exact (later.matchMethodName_iff _ _ _ _ _ final).2 ⟨fit, before.2⟩
  case h_17 => exact .of_recurs (onlyIf_recurs _ _ (matchClassOperand_recurs continues _ _))
  case h_18 =>
    refine .of_recurs (onlyIf_recurs _ _ ?_)
    split
    · exact .pure _ id
    · exact onlyIf_recurs _ _ (matchClassOperand_recurs continues _ _)
  case h_19 =>
    refine .of_recurs ?_
    split <;> exact .pure _ id
  case h_20 =>
    refine .of_recurs (onlyIf_recurs _ _ ?_)
    split
    · exact .pure _ id
    · exact matchType_recurs continues _ _
  all_goals exact .of_recurs (.pure _ id)

theorem matchOwner_keeps_members (cx : BodyContext) (pattern : Ident) (owner : String)
    (scope : Scope) :
    ((cx.matchOwner pattern owner).run scope).2.fields = scope.fields ∧
      ((cx.matchOwner pattern owner).run scope).2.methods = scope.methods := by
  change ((cx.classes.checkClassName pattern.text owner).run scope).2.fields = _ ∧
    ((cx.classes.checkClassName pattern.text owner).run scope).2.methods = _
  rw [ClassSet.run_checkClassName]
  split
  · exact ⟨rfl, rfl⟩
  split
  · exact ⟨rfl, rfl⟩
  unfold ClassSet.checkWeakName
  split
  · exact ⟨rfl, rfl⟩
  split
  · rename_i next bound
    obtain ⟨id, -, bound⟩ := Option.bind_eq_some_iff.1 bound
    exact Scope.members_of_bindClass? bound
  · exact ⟨rfl, rfl⟩

theorem owner_and_name_of_member {condition : Bool} {owner name type : ScopeM Bool}
    {scope : Scope}
    (success : ((onlyIf condition (both owner (both name type))).run scope).1 = true) :
    ∃ middle, owner.run scope = (true, middle) ∧ (name.run middle).1 = true := by
  cases condition with
  | false => cases success
  | true =>
    obtain ⟨middle, one, rest⟩ := run_both_eq_true (Prod.ext success rfl)
    obtain ⟨next, two, -⟩ := run_both_eq_true rest
    exact ⟨middle, one, by rw [two]⟩

/-- A pattern that matches has a weak name of a member only if it fits. -/
theorem memberFits_of_matchInsn (cx : BodyContext) (pattern : Pattern) (insn : Insn)
    (scope : Scope) (success : ((cx.matchInsn pattern insn).run scope).1 = true) :
    cx.classes.MemberFits scope pattern insn := by
  unfold ClassSet.MemberFits
  split
  case h_1 expected o n t d op owner name desc =>
    intro weak
    have reduced : ((onlyIf (expected == op) (both (cx.matchOwner o owner)
        (both (cx.matchFieldName n d owner name desc)
          (cx.matchType t (TypeDesc.parse desc))))).run scope).1 = true := success
    obtain ⟨middle, one, two⟩ := owner_and_name_of_member reduced
    have same := (cx.matchOwner_keeps_members o owner scope).1
    rw [one] at same
    exact ((cx.matchFieldName_iff _ _ _ _ _ middle).1 two).1 weak |>.congr same.symm
  case h_2 expected o n t d op owner name desc _ =>
    intro weak
    have reduced : ((onlyIf (expected == op) (both (cx.matchOwner o owner)
        (both (cx.matchMethodName n d owner name desc)
          (cx.matchMethodType t desc)))).run scope).1 = true := success
    obtain ⟨middle, one, two⟩ := owner_and_name_of_member reduced
    have same := (cx.matchOwner_keeps_members o owner scope).2
    rw [one] at same
    exact ((cx.matchMethodName_iff _ _ _ _ _ middle).1 two).1 weak |>.congr same.symm
  case h_3 => trivial

end BodyContext

end JvmPatch
