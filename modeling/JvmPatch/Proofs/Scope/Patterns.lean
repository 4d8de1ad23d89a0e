import JvmPatch.Proofs.Scope.OneToOne
import JvmPatch.Proofs.Scope.Under

/-! Method types of scripts as patterns. The comparison with a method type succeeds exactly if the
weak class names in the pattern can be given meanings under which it is that type, and it gives them
no more meanings than that takes. -/

set_option autoImplicit false

namespace JvmPatch

open ScopeM

/-- What weak class names stand for. -/
abbrev Meaning := String → Option ClassId

/-- A class name of a script, with its meaning in the place of a weak name, is the name of a
class. -/
inductive NameFits (set : ClassSet) (meaning : Meaning) : String → String → Prop
  | any {pattern name : String} : isAnyName pattern = true → NameFits set meaning pattern name
  | strong {name : String} : isWeakName name = false → NameFits set meaning name name
  | weak {pattern : String} {id : ClassId} : pattern ∈ weakNames pattern →
      meaning pattern = some id → NameFits set meaning pattern (set.classAt id).name

/-- A type of a script, with the meanings of its weak names, is a type. -/
inductive TypeFits (set : ClassSet) (meaning : Meaning) : TypeDesc → TypeDesc → Prop
  | object {dims : UInt8} {pattern name : String} : NameFits set meaning pattern name →
      TypeFits set meaning ⟨dims, .object pattern⟩ ⟨dims, .object name⟩
  | primitive {type : TypeDesc} : type.classNames = [] → TypeFits set meaning type type

/-- A method type of a script, with the meanings of its weak names, is a method type. -/
structure SignatureFits (set : ClassSet) (meaning : Meaning)
    (pattern type : MethodDesc) : Prop where
  params : List.Forall₂ (TypeFits set meaning) pattern.params type.params
  result : TypeFits set meaning pattern.result type.result

/-- A meaning that comes about by giving known classes to some names: names keep what they stand
for, and different names stand for different classes. A class is known if its name leads to it. -/
structure Scope.Completes (set : ClassSet) (scope : Scope) (names : List String)
    (meaning : Meaning) :
    Prop where
  extends_ : ∀ key id, scope.class? key = some id → meaning key = some id
  injective : ∀ key key' id, meaning key = some id → meaning key' = some id → key = key'
  only : ∀ key id, meaning key = some id →
    scope.class? key = some id ∨ key ∈ names ∧ set.find? (set.classAt id).name = some id

/-- Whether a class name of the type can be anything. -/
def MethodDesc.hasWildcard (m : MethodDesc) : Bool :=
  m.params.any TypeDesc.hasWildcard || m.result.hasWildcard

namespace Scope

/-- Every entry for a class name counts. -/
def Listed (scope : Scope) : Prop := ∀ e ∈ scope.classes.entries, scope.class? e.1 = some e.2

variable {may : Permit} {scope later : Scope}

theorem listed_empty : Listed {} := fun _ member => nomatch member

theorem Listed.binds (listed : scope.Listed) (binds : Binds may scope later) : later.Listed := by
  cases binds with
  | cls bound =>
    rcases bindClass?_cases bound with rfl | ⟨free, -, rfl⟩
    · exact listed
    intro e member
    rcases Table.mem_insertEntry member with rfl | old
    · exact Table.get?_insert_self _ _ _
    · refine Table.get?_insert_of_get? free (listed e old)
  | field _ bound => rcases bindField?_cases bound with rfl | ⟨-, -, rfl⟩ <;> exact listed
  | method _ bound => rcases bindMethod?_cases bound with rfl | ⟨-, -, rfl⟩ <;> exact listed
  | label _ bound => rcases bindLabel?_cases bound with rfl | ⟨-, -, rfl⟩ <;> exact listed

theorem Listed.steps (listed : scope.Listed) (steps : Steps may scope later) : later.Listed := by
  induction steps with
  | refl => exact listed
  | tail _ step ih =>
    cases step with
    | bind binds => exact ih.binds binds
    | record => exact ih
    | clear => exact ih

theorem Listed.gains (listed : scope.Listed) (gains : Gains may scope later) : later.Listed :=
  listed.steps gains.steps

end Scope

section Fits

variable {set : ClassSet} {meaning more : Meaning}

theorem NameFits.mono {pattern name : String} (fits : NameFits set meaning pattern name)
    (extends_ : ∀ key id, meaning key = some id → more key = some id) :
    NameFits set more pattern name := by
  cases fits with
  | any isAny => exact .any isAny
  | strong isStrong => exact .strong isStrong
  | weak isWeak means => exact .weak isWeak (extends_ _ _ means)

theorem TypeFits.mono {pattern type : TypeDesc} (fits : TypeFits set meaning pattern type)
    (extends_ : ∀ key id, meaning key = some id → more key = some id) :
    TypeFits set more pattern type := by
  cases fits with
  | object fits => exact .object (fits.mono extends_)
  | primitive noNames => exact .primitive noNames

end Fits

namespace TypeCheck

theorem unchanged_and (c : TypeCheck) : TypeCheck.unchanged.and c = c := by cases c <;> rfl

theorem and_unchanged (c : TypeCheck) : c.and .unchanged = c := by cases c <;> rfl

theorem and_assoc (a b c : TypeCheck) : (a.and b).and c = a.and (b.and c) := by
  cases a <;> cases b <;> cases c <;> rfl

end TypeCheck

/-- What a comparison does that succeeds: it binds some of the names to known classes, and says
whether it has bound any. -/
structure Scope.Gained (set : ClassSet) (names : List String) (scope : Scope) (check : TypeCheck)
    (later : Scope) :
    Prop where
  accepted : check ≠ .rejected
  classesOnly : later = { scope with classes := later.classes }
  extends_ : ∀ key id, scope.class? key = some id → later.class? key = some id
  only : ∀ key id, later.class? key = some id →
    scope.class? key = some id ∨ key ∈ names ∧ set.find? (set.classAt id).name = some id
  unchanged : check = .unchanged → later = scope
  bound : check = .bound → ∃ key, scope.class? key = none ∧ (later.class? key).isSome = true

namespace Scope.Gained

variable {set : ClassSet} {names names' : List String} {scope middle later : Scope}
  {check check' : TypeCheck}

protected theorem refl (set : ClassSet) (names : List String) (scope : Scope) :
    Gained set names scope .unchanged scope :=
  ⟨nofun, rfl, fun _ _ h => h, fun _ _ h => .inl h, fun _ => rfl, nofun⟩

theorem mono (gained : Gained set names scope check later) (subset : ∀ n ∈ names, n ∈ names') :
    Gained set names' scope check later :=
  { gained with
    only := fun key id means =>
      (gained.only key id means).imp_right fun new => ⟨subset _ new.1, new.2⟩ }

theorem trans (first : Gained set names scope check middle)
    (second : Gained set names middle check' later) :
    Gained set names scope (check.and check') later where
  accepted := by
    have := first.accepted
    have := second.accepted
    cases check <;> cases check' <;> simp_all [TypeCheck.and]
  classesOnly := by
    rw [second.classesOnly, first.classesOnly]
  extends_ key id means := second.extends_ key id (first.extends_ key id means)
  only key id means := by
    rcases second.only key id means with old | new
    · exact first.only key id old
    · exact .inr new
  unchanged none_ := by
    have : check = .unchanged ∧ check' = .unchanged := by
      cases check <;> cases check' <;> simp_all [TypeCheck.and]
    rw [second.unchanged this.2, first.unchanged this.1]
  bound some := by
    by_cases isFirst : check = .bound
    · obtain ⟨key, free, means⟩ := first.bound isFirst
      obtain ⟨id, means⟩ := Option.isSome_iff_exists.1 means
      exact ⟨key, free, by rw [second.extends_ key id means]; rfl⟩
    · have : check = .unchanged ∧ check' = .bound := by
        have := first.accepted
        cases check <;> cases check' <;> simp_all [TypeCheck.and]
      rw [← first.unchanged this.1]
      exact second.bound this.2

end Scope.Gained

namespace ClassSet

variable {set : ClassSet} {scope later : Scope} {names : List String} {meaning : Meaning}

/-- The comparison of class names finds out whether they fit, and binds a weak name if it has to. -/
theorem checkClassName_gained {pattern name : String} {check : TypeCheck}
    (ran : (set.checkClassName pattern name).run scope = (check, later))
    (accepted : check.accepted = true) :
    Scope.Gained set (weakNames pattern) scope check later ∧
      NameFits set later.class? pattern name := by
  have unbound (fits : NameFits set later.class? pattern name)
      (unchanged : (TypeCheck.unchanged, scope) = (check, later)) :
      Scope.Gained set (weakNames pattern) scope check later ∧
        NameFits set later.class? pattern name := by
    cases unchanged
    exact ⟨.refl set _ scope, fits⟩
  rw [run_checkClassName] at ran
  split at ran
  · rename_i isAny
    exact unbound (.any isAny) ran
  split at ran
  · rename_i isStrong
    split at ran
    · rename_i same
      subst same
      exact unbound (.strong (by simpa using isStrong)) ran
    · cases ran
      cases accepted
  · have member : pattern ∈ weakNames pattern := mem_weakNames.2 ⟨rfl, by simp_all, by simp_all⟩
    unfold checkWeakName at ran
    split at ran
    · rename_i id means
      split at ran
      · rename_i same
        subst same
        refine unbound (.weak member ?_) ran
        cases ran
        exact means
      · cases ran
        cases accepted
    · rename_i free
      split at ran
      · rename_i bound binds
        cases ran
        obtain ⟨id, known, isBound⟩ := Option.bind_eq_some_iff.1 binds
        obtain rfl := (find?_eq_some known).2
        obtain ⟨means, extended, -, only⟩ := Scope.bindClass?_eq_some isBound
        have new : later.class? pattern = some id := means
        refine ⟨⟨nofun, ?_, extended.classes, fun key found isFound => ?_, nofun, fun _ => ?_⟩,
          .weak member means⟩
        · rcases Scope.bindClass?_cases isBound with rfl | ⟨-, -, rfl⟩ <;> rfl
        · by_cases same : key = pattern
          · subst same
            obtain rfl := Option.some.inj (new.symm.trans isFound)
            exact .inr ⟨member, known⟩
          · rcases only key found isFound with old | rfl
            · exact .inl old
            · rcases Scope.bindClass?_cases isBound with rfl | ⟨-, -, rfl⟩
              · exact .inl isFound
              · exact .inl ((Table.get?_insert_of_ne _ _ same).symm.trans isFound)
        · exact ⟨pattern, free, by rw [new]; rfl⟩
      · cases ran
        cases accepted

/-- If a meaning makes a class name fit, then the name is accepted, and the meaning makes it stand
for what it has been bound to. -/
theorem checkClassName_of_fits (listed : scope.Listed) {pattern name : String}
    (completes : scope.Completes set names meaning) (fits : NameFits set meaning pattern name) :
    ((set.checkClassName pattern name).run scope).1.accepted = true ∧
      ((set.checkClassName pattern name).run scope).2.Completes set names meaning := by
  rw [run_checkClassName]
  cases fits with
  | any isAny =>
    rw [if_pos isAny]
    exact ⟨rfl, completes⟩
  | strong isStrong =>
    split
    · exact ⟨rfl, completes⟩
    · rw [if_pos (by simp [isStrong]), if_pos rfl]
      exact ⟨rfl, completes⟩
  | @weak id isWeak means =>
    obtain ⟨-, weak, notAny⟩ := mem_weakNames.1 isWeak
    rw [if_neg (by simp [notAny]), if_neg (by simp [weak]), checkWeakName]
    cases bound : scope.class? pattern with
    | some found =>
      obtain rfl := Option.some.inj ((completes.extends_ _ _ bound).symm.trans means)
      simp only [if_true]
      exact ⟨rfl, completes⟩
    | none =>
      have new : pattern ∈ names ∧ set.find? (set.classAt id).name = some id := by
        rcases completes.only pattern id means with old | new
        · rw [bound] at old
          cases old
        · exact new
      have free : scope.classKey? id = none := by
        rw [Scope.classKey?, Table.findKey?, Option.map_eq_none_iff, List.find?_eq_none]
        intro e member same
        obtain rfl := eq_of_beq same
        have old := listed e member
        rw [completes.injective _ _ _ (completes.extends_ _ _ old) means, bound] at old
        cases old
      have binds : scope.bindClass? pattern id =
          some { scope with classes := scope.classes.insert pattern id } := by
        rw [Scope.bindClass?, bound, free]
        rfl
      simp only [new.2, Option.bind_some, binds]
      refine ⟨rfl, fun key found isFound => ?_, completes.injective, fun key found isFound => ?_⟩
      · by_cases same : key = pattern
        · subst same
          rw [Scope.class?, Table.get?_insert_self] at isFound
          obtain rfl := Option.some.inj isFound
          exact means
        · exact completes.extends_ key found ((Table.get?_insert_of_ne _ _ same).symm.trans isFound)
      · exact (completes.only key found isFound).imp_left
          ((Scope.bindClass?_eq_some binds).2.1.classes key found)

theorem checkType_gained {pattern type : TypeDesc} {check : TypeCheck}
    (ran : (set.checkType pattern type).run scope = (check, later))
    (accepted : check.accepted = true) :
    Scope.Gained set pattern.weakNames scope check later ∧
      TypeFits set later.class? pattern type := by
  obtain ⟨dims, base⟩ := pattern
  obtain ⟨dims', base'⟩ := type
  unfold checkType at ran
  split at ran
  · cases ran
    cases accepted
  rename_i sameDims
  obtain rfl : dims = dims' := Decidable.not_not.1 sameDims
  split at ran
  · rename_i expected name isExpected isName
    obtain rfl : base = .object expected := isExpected
    obtain rfl : base' = .object name := isName
    obtain ⟨gained, fits⟩ := checkClassName_gained ran accepted
    exact ⟨gained, .object fits⟩
  · rename_i noNames
    split at ran
    · rename_i same
      obtain rfl : base = base' := same
      cases ran
      refine ⟨.refl set _ scope, .primitive ?_⟩
      cases base with
      | object name => exact (noNames name name rfl rfl).elim
      | _ => rfl
    · cases ran
      cases accepted

theorem checkType_of_fits (listed : scope.Listed) {pattern type : TypeDesc}
    (completes : scope.Completes set names meaning) (fits : TypeFits set meaning pattern type) :
    ((set.checkType pattern type).run scope).1.accepted = true ∧
      ((set.checkType pattern type).run scope).2.Completes set names meaning := by
  cases fits with
  | object fits =>
    rw [checkType, if_neg (fun different => different rfl)]
    exact checkClassName_of_fits listed completes fits
  | primitive noNames =>
    obtain ⟨dims, base⟩ := pattern
    rw [checkType, if_neg (fun different => different rfl)]
    cases base with
    | object name => cases noNames
    | _ => exact ⟨rfl, completes⟩

/-- The types of parameters are compared from left to right. Bindings stay, so that the types fit in
the end if each fits when it is compared. -/
theorem checkParams_gained {ps ts : List TypeDesc} {soFar check : TypeCheck}
    (counts : ps.length = ts.length)
    (ran : (set.checkParams ps ts soFar).run scope = .ok check later) :
    ∃ here, check = soFar.and here ∧
      Scope.Gained set (ps.flatMap TypeDesc.weakNames) scope here later ∧
      List.Forall₂ (TypeFits set later.class?) ps ts := by
  induction ps generalizing ts soFar scope with
  | nil =>
    obtain rfl := List.length_eq_zero_iff.1 counts.symm
    cases ran
    exact ⟨.unchanged, check.and_unchanged.symm, .refl set _ _, .nil⟩
  | cons p ps ih =>
    cases ts with
    | nil => cases counts
    | cons t ts =>
      rw [run_checkParams_cons] at ran
      split at ran
      · rename_i accepted
        obtain ⟨first, fits⟩ := checkType_gained (@rfl _ ((set.checkType p t).run scope)) accepted
        obtain ⟨rest, isCheck, gained, restFits⟩ := ih (Nat.succ.inj counts) ran
        refine ⟨_, isCheck.trans (TypeCheck.and_assoc _ _ _), ?_,
          .cons (fits.mono gained.extends_) restFits⟩
        rw [List.flatMap_cons]
        exact (first.mono fun _ => List.mem_append_left _).trans
          (gained.mono fun _ => List.mem_append_right _)
      · cases ran

theorem checkParams_of_fits (listed : scope.Listed) {ps ts : List TypeDesc}
    (completes : scope.Completes set names meaning)
    (fits : List.Forall₂ (TypeFits set meaning) ps ts) (soFar : TypeCheck) :
    ∃ check later, (set.checkParams ps ts soFar).run scope = .ok check later ∧ later.Listed ∧
      later.Completes set names meaning := by
  induction fits generalizing scope soFar with
  | nil => exact ⟨soFar, scope, rfl, listed, completes⟩
  | @cons p t ps ts fits _ ih =>
    rw [run_checkParams_cons]
    obtain ⟨accepted, after⟩ := checkType_of_fits listed completes fits
    rw [if_pos accepted]
    have gains : scope.Gains .everything _ := set.checkType_gains p t scope
    exact ih (listed.gains gains) after _

/-- The comparison of method types finds out whether they fit, and binds the weak names that it has
to. -/
theorem checkMethodTypes_gained {pattern type : MethodDesc} {check : TypeCheck}
    (ran : (set.checkMethodTypes pattern type).run scope = .ok check later) :
    Scope.Gained set pattern.weakNames scope check later ∧
      SignatureFits set later.class? pattern type := by
  unfold checkMethodTypes at ran
  split at ran
  · cases ran
  rename_i counts
  obtain ⟨params, middle, one, two⟩ := run_bind_ok ran
  obtain ⟨_, rfl, first, paramsFit⟩ := checkParams_gained (Decidable.not_not.1 counts) one
  have single : [pattern.result].length = [type.result].length := rfl
  obtain ⟨_, rfl, second, resultFits⟩ := checkParams_gained single two
  have result : Scope.Gained set pattern.result.weakNames middle _ later :=
    second.mono fun n member => by simpa using member
  refine ⟨?_, paramsFit.imp fun _ _ fits => fits.mono result.extends_,
    (List.forall₂_cons.1 resultFits).1⟩
  rw [TypeCheck.unchanged_and]
  exact (first.mono fun _ => List.mem_append_left _).trans
    (result.mono fun _ => List.mem_append_right _)

theorem checkMethodTypes_of_fits (listed : scope.Listed) {pattern type : MethodDesc}
    (completes : scope.Completes set names meaning)
    (fits : SignatureFits set meaning pattern type) :
    ∃ check later, (set.checkMethodTypes pattern type).run scope = .ok check later ∧
      later.Completes set names meaning := by
  obtain ⟨check, middle, one, stillListed, after⟩ :=
    checkParams_of_fits listed completes fits.params .unchanged
  obtain ⟨check', later, two, -, final⟩ :=
    checkParams_of_fits stillListed after (.cons fits.result .nil) check
  refine ⟨check', later, ?_, final⟩
  rw [checkMethodTypes, if_neg (fun different => different fits.params.length_eq),
    EStateM.run_bind, one]
  exact two

end ClassSet

namespace Scope

variable {set : ClassSet} {scope later : Scope} {names : List String}

/-- A scope in which names are one to one gives the names that have been bound their meanings. -/
theorem Gained.completes {check : TypeCheck} (gained : Gained set names scope check later)
    (unique : later.OneToOne) : scope.Completes set names later.class? :=
  ⟨gained.extends_, unique.classes, gained.only⟩

theorem mapClass_of_fits {pattern name : String} (fits : NameFits set scope.class? pattern name)
    (noWildcard : isAnyName pattern = false) : scope.mapClass set pattern = .ok name := by
  cases fits with
  | any isAny => simp [isAny] at noWildcard
  | strong isStrong => simp [mapClass, isStrong]
  | weak isWeak means => simp [mapClass, (mem_weakNames.1 isWeak).2.1, means]

/-- With its names bound, a type without wildcards is the type that it fits. -/
theorem mapType_of_fits {pattern type : TypeDesc} (fits : TypeFits set scope.class? pattern type)
    (noWildcard : pattern.hasWildcard = false) : scope.mapType set pattern = .ok type := by
  cases fits with
  | object fits => simp [mapType, mapClass_of_fits fits noWildcard, Except.map]
  | primitive noNames =>
    obtain ⟨dims, base⟩ := pattern
    cases base with
    | object name => cases noNames
    | _ => rfl

theorem mapMethod_of_fits {pattern type : MethodDesc}
    (fits : SignatureFits set scope.class? pattern type)
    (noWildcard : pattern.hasWildcard = false) : scope.mapMethod set pattern = .ok type := by
  obtain ⟨noneParams, noneResult⟩ := Bool.or_eq_false_iff.1 noWildcard
  have params : pattern.params.mapM (scope.mapType set) = .ok type.params := by
    have each := fits.params
    generalize pattern.params = ps at each noneParams
    generalize type.params = ts at each
    induction each with
    | nil => rfl
    | cons one _ ih =>
      rw [List.any_cons, Bool.or_eq_false_iff] at noneParams
      rw [List.mapM_cons, mapType_of_fits one noneParams.1, ih noneParams.2]
      rfl
  rw [mapMethod, params, mapType_of_fits fits.result noneResult]
  rfl

end Scope

namespace ClassSet

variable {set : ClassSet} {scope : Scope}

/-- The comparison of method types solves a matching problem: it succeeds exactly if the weak names
of the pattern can be given known classes so that the pattern is the method type, different names
different classes, and then it has bound the names that every such solution binds. It reports
whether it has bound any, it binds nothing the next time, and the pattern without wildcards then
stands for the method type. -/
theorem checkMethodTypes_matches (built : Scope.Steps .everything {} scope)
    (pattern type : MethodDesc) :
    ((∃ check later, (set.checkMethodTypes pattern type).run scope = .ok check later) ↔
      ∃ meaning, scope.Completes set pattern.weakNames meaning ∧
        SignatureFits set meaning pattern type) ∧
    ∀ check later, (set.checkMethodTypes pattern type).run scope = .ok check later →
      (scope.Completes set pattern.weakNames later.class? ∧
        SignatureFits set later.class? pattern type ∧
        ∀ meaning, scope.Completes set pattern.weakNames meaning →
          SignatureFits set meaning pattern type →
          ∀ key id, later.class? key = some id → meaning key = some id) ∧
      later = { scope with classes := later.classes } ∧
      (check = .bound ↔ ∃ key, scope.class? key = none ∧ (later.class? key).isSome = true) ∧
      (check = .unchanged ↔ later = scope) ∧
      (set.checkMethodTypes pattern type).run later = .ok .unchanged later ∧
      (pattern.hasWildcard = false → later.mapMethod set pattern = .ok type) := by
  have unique : scope.OneToOne := Scope.oneToOne_empty.steps built
  have listed : scope.Listed := Scope.listed_empty.steps built
  have final {check : TypeCheck} {later : Scope}
      (ran : (set.checkMethodTypes pattern type).run scope = .ok check later) :
      Scope.Gains .everything scope later := by
    have gains : scope.Gains .everything _ := set.checkMethodTypes_gains pattern type scope
    rwa [ran] at gains
  have solves {check : TypeCheck} {later : Scope}
      (ran : (set.checkMethodTypes pattern type).run scope = .ok check later) :
      scope.Completes set pattern.weakNames later.class? :=
    (checkMethodTypes_gained ran).1.completes (unique.gains (final ran))
  constructor
  · constructor
    · rintro ⟨check, later, ran⟩
      exact ⟨later.class?, solves ran, (checkMethodTypes_gained ran).2⟩
    · rintro ⟨meaning, completes, fits⟩
      obtain ⟨check, later, ran, -⟩ := checkMethodTypes_of_fits listed completes fits
      exact ⟨check, later, ran⟩
  intro check later ran
  obtain ⟨gained, fits⟩ := checkMethodTypes_gained ran
  -- What a solution adds to the names that are bound is nothing that the comparison adds to it.
  have again : (set.checkMethodTypes pattern type).run later = .ok .unchanged later := by
    have itself : later.Completes set pattern.weakNames later.class? :=
      ⟨fun _ _ means => means, (unique.gains (final ran)).classes, fun _ _ means => .inl means⟩
    obtain ⟨check', latest, ran', completes⟩ :=
      checkMethodTypes_of_fits (listed.gains (final ran)) itself fits
    obtain ⟨gained', -⟩ := checkMethodTypes_gained ran'
    cases check' with
    | unchanged => rw [ran', gained'.unchanged rfl]
    | rejected => exact (gained'.accepted rfl).elim
    | bound =>
      obtain ⟨key, free, isBound⟩ := gained'.bound rfl
      obtain ⟨id, means⟩ := Option.isSome_iff_exists.1 isBound
      rw [completes.extends_ key id means] at free
      cases free
  refine ⟨⟨solves ran, fits, fun meaning completes fits => ?_⟩, gained.classesOnly,
    ⟨gained.bound, ?_⟩, ⟨gained.unchanged, ?_⟩, again, Scope.mapMethod_of_fits fits⟩
  · obtain ⟨check', later', ran', completes'⟩ := checkMethodTypes_of_fits listed completes fits
    rw [ran] at ran'
    cases ran'
    exact completes'.extends_
  · rintro ⟨key, free, isBound⟩
    cases check with
    | bound => rfl
    | rejected => exact (gained.accepted rfl).elim
    | unchanged =>
      rw [gained.unchanged rfl, free] at isBound
      cases isBound
  · rintro rfl
    cases check with
    | unchanged => rfl
    | rejected => exact (gained.accepted rfl).elim
    | bound =>
      obtain ⟨key, free, isBound⟩ := gained.bound rfl
      rw [free] at isBound
      cases isBound

/-- With a name bound to one of two classes, another one that occurs twice can only be the other
class. -/
theorem checkMethodTypes_matches_twoClasses :
    let set : ClassSet := { classes := #[.stub "a/Foo", .stub "a/Bar"] }
    let pattern : MethodDesc :=
      ⟨[.object "~X", ⟨1, .object "~X"⟩, .object "~Y", .object "*"], .void⟩
    let type : MethodDesc :=
      ⟨[.object "a/Foo", ⟨1, .object "a/Foo"⟩, .object "a/Bar", .object "a/Baz"], .void⟩
    ∃ scope, Scope.bindClass? {} "~Y" ⟨1⟩ = some scope ∧ Scope.Steps .everything {} scope ∧
      (∃ meaning, scope.Completes set pattern.weakNames meaning ∧
        SignatureFits set meaning pattern type) ∧
      ∃ later, (set.checkMethodTypes pattern type).run later = .ok .unchanged later := by
  intro set pattern type
  obtain ⟨scope, bound⟩ : ∃ scope, Scope.bindClass? {} "~Y" ⟨1⟩ = some scope := ⟨_, rfl⟩
  have built : Scope.Steps .everything {} scope := .single (.bind (.cls bound))
  obtain ⟨decides, finds⟩ := checkMethodTypes_matches built pattern type
  obtain rfl := Option.some.inj bound
  have ran : (set.checkMethodTypes pattern type).run { classes := Table.insert {} "~Y" ⟨1⟩ } =
      .ok .bound { classes := .insert (.insert {} "~Y" ⟨1⟩) "~X" ⟨0⟩ } := by
    simp only [set, pattern, type]
    decide +kernel
  exact ⟨_, bound, built, decides.1 ⟨_, _, ran⟩, _, (finds _ _ ran).2.2.2.2.1⟩

end ClassSet

end JvmPatch
