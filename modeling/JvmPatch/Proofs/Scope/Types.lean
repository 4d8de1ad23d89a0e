import JvmPatch.Proofs.Scope.Extension
import JvmPatch.Proofs.Steps

/-! Types of scripts that have agreed with types of classes agree with them again, and nothing is
bound then. -/

set_option autoImplicit false

namespace JvmPatch

open ScopeM

/-- Once a comparison has succeeded, another one succeeds with any further bindings, and binds
nothing. -/
def Agrees (set : ClassSet) (test again : ScopeM TypeCheck) : Prop :=
  ∀ scope check found, test.run scope = (check, found) → check.accepted = true →
    found.Knows set → ∀ later : Scope, later.Extends found → again.run later = (.unchanged, later)

namespace ClassSet

variable {set later : ClassSet}

/-- The comparison of a weak class name with the name of a class. -/
def checkWeakName (set : ClassSet) (pattern name : String) (scope : Scope) : TypeCheck × Scope :=
  match scope.class? pattern with
  | some bound => (if (set.classAt bound).name = name then .unchanged else .rejected, scope)
  | none =>
    match (set.find? name).bind (scope.bindClass? pattern) with
    | some later => (.bound, later)
    | none => (.rejected, scope)

theorem run_checkClassName (set : ClassSet) (pattern name : String) (scope : Scope) :
    (set.checkClassName pattern name).run scope =
      if isAnyName pattern then (.unchanged, scope)
      else if !isWeakName pattern then
        (if pattern = name then .unchanged else .rejected, scope)
      else set.checkWeakName pattern name scope := by
  unfold checkClassName
  split
  · rfl
  split
  · rfl
  unfold checkWeakName
  simp only [run_bind, run_get]
  cases scope.class? pattern with
  | some bound => rfl
  | none =>
    cases set.find? name with
    | none => rfl
    | some id =>
      simp only [run_bind, run_update, Option.bind_some]
      cases scope.bindClass? pattern id with
      | none => rfl
      | some later => rfl

theorem checkClassName_widening (set : ClassSet) (pattern name : String) :
    Widening set (set.checkClassName pattern name) := by
  intro scope
  rw [run_checkClassName]
  split
  · exact .refl set scope
  split
  · exact .refl set scope
  unfold checkWeakName
  split
  · exact .refl set scope
  · split
    · rename_i later bound
      obtain ⟨id, named, bound⟩ := Option.bind_eq_some_iff.1 bound
      exact Scope.bindClass?_widens (find?_eq_some named).1 bound
    · exact .refl set scope

/-- A weak name that has been accepted for a class of a given name stands for such a class. -/
theorem bound_of_checkWeakName {set : ClassSet} {pattern name : String} {scope found : Scope}
    {check : TypeCheck} (success : set.checkWeakName pattern name scope = (check, found))
    (accepted : check.accepted = true) :
    ∃ id, found.class? pattern = some id ∧ (set.classAt id).name = name := by
  unfold checkWeakName at success
  split at success
  · rename_i id already
    obtain ⟨rfl, rfl⟩ := Prod.mk.inj success
    split at accepted
    · exact ⟨id, already, ‹_›⟩
    · simp [TypeCheck.accepted] at accepted
  · split at success
    · rename_i later bound
      obtain ⟨rfl, rfl⟩ := Prod.mk.inj success
      obtain ⟨id, named, bound⟩ := Option.bind_eq_some_iff.1 bound
      exact ⟨id, (Scope.bindClass?_eq_some bound).1, (find?_eq_some named).2⟩
    · obtain ⟨rfl, rfl⟩ := Prod.mk.inj success
      simp [TypeCheck.accepted] at accepted

theorem checkClassName_agrees (keeps : set.KeepsNames later) (pattern name : String) :
    Agrees set (set.checkClassName pattern name) (later.checkClassName pattern name) := by
  intro scope check found success accepted knows final extended
  rw [run_checkClassName] at success ⊢
  split at success
  · rw [if_pos ‹_›]
  rw [if_neg ‹_›]
  split at success
  · rw [if_pos ‹_›]
    obtain ⟨rfl, rfl⟩ := Prod.mk.inj success
    split at accepted
    · rw [if_pos ‹_›]
    · simp [TypeCheck.accepted] at accepted
  · rw [if_neg ‹_›]
    obtain ⟨id, bound, same⟩ := bound_of_checkWeakName success accepted
    have sameLater : (later.classAt id).name = name := (keeps id (knows _ _ bound)).trans same
    rw [checkWeakName, extended.classes _ _ bound]
    simp only [sameLater, if_true]

theorem run_matchFirst_cons (set : ClassSet) (pattern name : String) (names : List String)
    (scope : Scope) :
    (set.matchFirst pattern (name :: names)).run scope =
      if ((set.checkClassName pattern name).run scope).1.accepted = true then
        (true, ((set.checkClassName pattern name).run scope).2)
      else (set.matchFirst pattern names).run scope := rfl

theorem checkType_widening (set : ClassSet) (pattern type : TypeDesc) :
    Widening set (set.checkType pattern type) := by
  unfold checkType
  split
  · exact .pure set _
  · split
    · exact set.checkClassName_widening _ _
    · exact .pure set _

theorem checkType_agrees (keeps : set.KeepsNames later) (pattern type : TypeDesc) :
    Agrees set (set.checkType pattern type) (later.checkType pattern type) := by
  have constant : ∀ (p : Prop) [Decidable p],
      Agrees set (pure (if p then .unchanged else .rejected))
        (pure (if p then .unchanged else .rejected)) := by
    intro p _ scope check found success accepted _ final _
    obtain ⟨rfl, rfl⟩ := Prod.mk.inj success
    split at accepted
    · rw [if_pos ‹_›]
      rfl
    · simp [TypeCheck.accepted] at accepted
  unfold checkType
  split
  · exact constant False
  · split
    · exact checkClassName_agrees keeps _ _
    · exact constant _

/-- The scope in which a comparison of types ends. -/
def finalScope {ε α : Type} : EStateM.Result ε Scope α → Scope
  | .ok _ scope | .error _ scope => scope

theorem run_checkParams_cons (set : ClassSet) (p t : TypeDesc) (ps ts : List TypeDesc)
    (soFar : TypeCheck) (scope : Scope) :
    (set.checkParams (p :: ps) (t :: ts) soFar).run scope =
      if ((set.checkType p t).run scope).1.accepted then
        (set.checkParams ps ts (soFar.and ((set.checkType p t).run scope).1)).run
          ((set.checkType p t).run scope).2
      else .error (.type p t) ((set.checkType p t).run scope).2 := by
  rw [checkParams]
  simp only [EStateM.run_bind, EStateM.run_get]
  obtain ⟨check, middle⟩ := (set.checkType p t).run scope
  cases h : check.accepted <;> simp [h]

theorem checkParams_widens (set : ClassSet) (ps ts : List TypeDesc) (soFar : TypeCheck)
    (scope : Scope) :
    Scope.Widens set scope (finalScope ((set.checkParams ps ts soFar).run scope)) := by
  induction ps generalizing ts soFar scope with
  | nil => exact .refl set scope
  | cons p ps ih =>
    cases ts with
    | nil => exact .refl set scope
    | cons t ts =>
      rw [run_checkParams_cons]
      split
      · exact (set.checkType_widening p t scope).trans (ih ts _ _)
      · exact set.checkType_widening p t scope

theorem checkParams_agrees (keeps : set.KeepsNames later) (ps ts : List TypeDesc)
    (soFar again check : TypeCheck) (scope found : Scope)
    (success : (set.checkParams ps ts soFar).run scope = .ok check found)
    (knows : found.Knows set) (final : Scope) (extended : final.Extends found) :
    ∃ check, (later.checkParams ps ts again).run final = .ok check final := by
  induction ps generalizing ts soFar again scope with
  | nil => exact ⟨again, rfl⟩
  | cons p ps ih =>
    cases ts with
    | nil => exact ⟨again, rfl⟩
    | cons t ts =>
      rw [run_checkParams_cons] at success
      split at success
      · rename_i accepted
        have widens := set.checkParams_widens ps ts
          (soFar.and ((set.checkType p t).run scope).1) ((set.checkType p t).run scope).2
        rw [success] at widens
        have same := checkType_agrees keeps p t scope _ _ rfl accepted (widens.knowsBefore knows)
          final (extended.trans widens.extends_)
        rw [run_checkParams_cons, same]
        exact ih ts _ _ _ success
      · cases success

theorem checkMethodTypes_widens (set : ClassSet) (pattern type : MethodDesc) (scope : Scope) :
    Scope.Widens set scope (finalScope ((set.checkMethodTypes pattern type).run scope)) := by
  unfold checkMethodTypes
  split
  · exact .refl set scope
  · rw [EStateM.run_bind]
    have one := set.checkParams_widens pattern.params type.params .unchanged scope
    cases h : (set.checkParams pattern.params type.params .unchanged).run scope with
    | error e middle => simpa [h] using one
    | ok check middle =>
      rw [h] at one
      exact one.trans (set.checkParams_widens [pattern.result] [type.result] check middle)

theorem methodTypesAgree_widening (set : ClassSet) (pattern type : MethodDesc) :
    Widening set (set.methodTypesAgree pattern type) := by
  intro scope
  have widens := set.checkMethodTypes_widens pattern type scope
  change Scope.Widens set scope (set.methodTypesAgree pattern type scope).2
  unfold methodTypesAgree
  split
  · rename_i h
    rwa [h] at widens
  · rename_i h
    rwa [h] at widens

theorem methodTypesAgree_recurs (keeps : set.KeepsNames later) (pattern type : MethodDesc) :
    Recurs set (set.methodTypesAgree pattern type) (later.methodTypesAgree pattern type) := by
  intro scope found success knows final extended
  change set.methodTypesAgree pattern type scope = _ at success
  change later.methodTypesAgree pattern type final = _
  unfold methodTypesAgree at success ⊢
  split at success
  · rename_i check reached h
    obtain rfl := (Prod.mk.inj success).2
    unfold checkMethodTypes at h ⊢
    split at h
    · simp at h
    · rw [if_neg ‹_›]
      obtain ⟨params, middle, one, two⟩ := run_bind_ok h
      have widens := set.checkParams_widens [pattern.result] [type.result] params middle
      rw [two] at widens
      obtain ⟨paramsAgain, one'⟩ := checkParams_agrees keeps _ _ _ .unchanged _ _ _ one
        (widens.knowsBefore knows) final (extended.trans widens.extends_)
      obtain ⟨last, two'⟩ := checkParams_agrees keeps _ _ _ paramsAgain _ _ _ two knows final
        extended
      rw [EStateM.run_bind, one']
      simp only [two']
  · cases success

theorem typesAgree_widening (set : ClassSet) (pattern type : TypeDesc) :
    Widening set (set.typesAgree pattern type) :=
  (set.checkType_widening pattern type).bind fun _ => .pure set _

/-- A comparison that agrees again, as a test. -/
theorem recurs_of_agrees {test again : ScopeM TypeCheck} (agrees : Agrees set test again) :
    Recurs set (do pure (← test).accepted) (do pure (← again).accepted) := by
  intro scope found success knows final extended
  rw [run_bind] at success ⊢
  obtain ⟨accepted, rfl⟩ := Prod.mk.inj success
  rw [agrees scope _ _ rfl accepted knows final extended]
  rfl

theorem typesAgree_recurs (keeps : set.KeepsNames later) (pattern type : TypeDesc) :
    Recurs set (set.typesAgree pattern type) (later.typesAgree pattern type) :=
  recurs_of_agrees (checkType_agrees keeps pattern type)

end ClassSet

end JvmPatch
