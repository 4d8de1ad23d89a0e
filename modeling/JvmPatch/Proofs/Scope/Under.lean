import JvmPatch.Proofs.Scope.Types

/-! Tests under a binding of all weak class names. A test that holds under the binding succeeds with
any part of it, and binds its names as the binding does; with its names bound like that it decides
what holds, and binds nothing. -/

set_option autoImplicit false

namespace JvmPatch

open ScopeM

/-- The weak class name that a name is, if it is one. -/
def weakNames (name : String) : List String :=
  if isWeakName name && !isAnyName name then [name] else []

theorem mem_weakNames {name pattern : String} :
    name ∈ weakNames pattern ↔
      name = pattern ∧ isWeakName pattern = true ∧ isAnyName pattern = false := by
  rw [weakNames]
  split <;> simp_all

def TypeDesc.weakNames (t : TypeDesc) : List String :=
  match t.base with
  | .object name => JvmPatch.weakNames name
  | _ => []

def MethodDesc.weakNames (t : MethodDesc) : List String :=
  t.params.flatMap TypeDesc.weakNames ++ t.result.weakNames

namespace Scope

/-- Different weak class names stand for different classes, and for such that are known by their
names. -/
structure Injective (full : Scope) (set : ClassSet) : Prop where
  apart : ∀ k k' id, full.class? k = some id → full.class? k' = some id → k = k'
  known : ∀ k id, full.class? k = some id → set.find? (set.classAt id).name = some id

/-- Weak class names stand for what they stand for in a binding of all of them. -/
def Under (scope full : Scope) : Prop := ∀ e ∈ scope.classes.entries, full.class? e.1 = some e.2

/-- Whether some weak class names stand for classes. -/
def Settles (scope : Scope) (names : List String) : Prop :=
  ∀ name ∈ names, (scope.class? name).isSome = true

variable {scope later latest full : Scope} {names names' : List String}

theorem under_empty (full : Scope) : Under {} full := fun _ member => nomatch member

theorem Under.class? (under : scope.Under full) {key : String} {id : ClassId}
    (bound : scope.class? key = some id) : full.class? key = some id :=
  under (key, id) (Table.mem_entries_of_get? bound)

theorem Under.congr (under : scope.Under full) (same : later.classes = scope.classes) :
    later.Under full := by
  rwa [Under, same]

theorem Settles.append (first : scope.Settles names) (second : scope.Settles names') :
    scope.Settles (names ++ names') := by
  intro name member
  rcases List.mem_append.1 member with h | h
  · exact first name h
  · exact second name h

theorem Settles.mono (settles : scope.Settles names) (subset : ∀ name ∈ names', name ∈ names) :
    scope.Settles names' := fun name member => settles name (subset name member)

theorem Settles.same (settles : scope.Settles names) (under : scope.Under full) :
    ∀ name ∈ names, scope.class? name = full.class? name := by
  intro name member
  obtain ⟨id, bound⟩ := Option.isSome_iff_exists.1 (settles name member)
  rw [bound, under.class? bound]

/-- More weak class names stand for classes than before, as in the full binding. -/
structure Reaches (full scope later : Scope) : Prop where
  under : later.Under full
  extends_ : ∀ key id, scope.class? key = some id → later.class? key = some id

theorem Reaches.refl (under : scope.Under full) : Reaches full scope scope :=
  ⟨under, fun _ _ bound => bound⟩

theorem Reaches.trans (first : Reaches full scope later) (second : Reaches full later latest) :
    Reaches full scope latest :=
  ⟨second.under, fun key id bound => second.extends_ key id (first.extends_ key id bound)⟩

theorem Reaches.settles (reaches : Reaches full scope later) (settles : scope.Settles names) :
    later.Settles names := by
  intro name member
  obtain ⟨id, bound⟩ := Option.isSome_iff_exists.1 (settles name member)
  rw [reaches.extends_ name id bound]
  rfl

/-- A weak class name can be bound to the class that it stands for in the full binding. -/
theorem bindClass?_of_under (under : scope.Under full) {set : ClassSet}
    (injective : full.Injective set) {key : String} {id : ClassId}
    (means : full.class? key = some id) :
    ∃ later, scope.bindClass? key id = some later ∧ Reaches full scope later ∧
      later.class? key = some id := by
  unfold bindClass?
  cases bound : scope.class? key with
  | some found =>
    obtain rfl := Option.some.inj ((under.class? bound).symm.trans means)
    exact ⟨scope, by simp, .refl under, bound⟩
  | none =>
    have free : scope.classKey? id = none := by
      rw [classKey?, Table.findKey?, Option.map_eq_none_iff, List.find?_eq_none]
      intro e member same
      obtain rfl := eq_of_beq same
      obtain rfl := injective.apart _ _ _ (under e member) means
      exact Table.ne_of_get?_eq_none bound e member rfl
    simp only [free, Option.isSome_none, Bool.false_eq_true, if_false]
    refine ⟨_, rfl, ⟨fun e member => ?_, fun k found h => ?_⟩, Table.get?_insert_self _ _ _⟩
    · rcases Table.mem_insertEntry member with rfl | old
      · exact means
      · exact under e old
    · have different : k ≠ key := by
        rintro rfl
        rw [bound] at h
        cases h
      exact (Table.get?_insert_of_ne _ _ different).trans h

end Scope

/-- A test decides what holds under a full binding once its names are settled, and where it holds it
settles them. -/
structure DecidesUnder (full : Scope) (names : List String) (test : ScopeM Bool) : Prop where
  decides : full.Settles names → ∀ scope : Scope,
    (∀ name ∈ names, scope.class? name = full.class? name) →
      test.run scope = ((test.run full).1, scope)
  settles : (test.run full).1 = true → full.Settles names → ∀ scope : Scope, scope.Under full →
    ∃ later, test.run scope = (true, later) ∧ Scope.Reaches full scope later ∧ later.Settles names

namespace DecidesUnder

variable {full : Scope} {names names' : List String} {test test' : ScopeM Bool}

protected theorem pure (full : Scope) (x : Bool) : DecidesUnder full [] (pure x) where
  decides := fun _ _ _ => rfl
  settles := fun holds _ scope under =>
    ⟨scope, congrArg (·, scope) holds, .refl under, fun _ member => nomatch member⟩

/-- A test that is not made, as far as its names are concerned. -/
protected theorem false (full : Scope) (names : List String) :
    DecidesUnder full names (pure false) where
  decides := fun _ _ _ => rfl
  settles := fun holds => (Bool.false_ne_true holds).elim

theorem run_full (decides : DecidesUnder full names test) (total : full.Settles names) :
    test.run full = ((test.run full).1, full) := decides.decides total full fun _ _ => rfl

protected theorem both (first : DecidesUnder full names test)
    (second : DecidesUnder full names' test') :
    DecidesUnder full (names ++ names') (both test test') := by
  constructor
  · intro total scope same
    have left : full.Settles names := total.mono fun _ member => List.mem_append_left _ member
    have right : full.Settles names' := total.mono fun _ member => List.mem_append_right _ member
    have one := first.decides left scope fun name member =>
      same name (List.mem_append_left _ member)
    have two := second.decides right scope fun name member =>
      same name (List.mem_append_right _ member)
    rw [both, run_bind, run_bind, one, first.run_full left]
    cases (test.run full).1 with
    | true => exact two
    | false => rfl
  · intro holds total scope under
    have left : full.Settles names := total.mono fun _ member => List.mem_append_left _ member
    have right : full.Settles names' := total.mono fun _ member => List.mem_append_right _ member
    rw [both, run_bind, first.run_full left] at holds
    cases accepted : (test.run full).1 with
    | false =>
      rw [accepted] at holds
      cases holds
    | true =>
      rw [accepted] at holds
      obtain ⟨middle, one, toMiddle, settled⟩ := first.settles accepted left scope under
      obtain ⟨later, two, toLater, settled'⟩ := second.settles holds right middle toMiddle.under
      exact ⟨later, by rw [run_both_of_true one, two], toMiddle.trans toLater,
        (toLater.settles settled).append settled'⟩

protected theorem all {α : Type} {test : α → ScopeM Bool} {xs : List α}
    (names : α → List String) (each : ∀ x ∈ xs, DecidesUnder full (names x) (test x)) :
    DecidesUnder full (xs.flatMap names) (all test xs) := by
  induction xs with
  | nil => exact .pure full true
  | cons x xs ih =>
    rw [List.flatMap_cons]
    exact (each x List.mem_cons_self).both (ih fun y member => each y (.tail _ member))

/-- The test may be compared with another one that does the same. -/
theorem congr (decides : DecidesUnder full names test)
    (same : ∀ scope, test'.run scope = test.run scope) : DecidesUnder full names test' := by
  rwa [show test' = test from funext same]

theorem of_eq (decides : DecidesUnder full names test) (same : names' = names) :
    DecidesUnder full names' test := same ▸ decides

/-- If only tests succeed that hold under the full binding, then the first one that succeeds settles
its names. -/
theorem exists_first {α : Type} {test : α → ScopeM Bool} {xs : List α}
    (each : ∀ x ∈ xs, DecidesUnder full names (test x)) (total : full.Settles names)
    {scope : Scope} (under : scope.Under full) {x : α} (member : x ∈ xs)
    (holds : ((test x).run full).1 = true)
    (clear : ∀ y ∈ xs, ((test y).run scope).1 = true → ((test y).run full).1 = true) :
    ∃ before y after later, xs = before ++ y :: after ∧
      (∀ z ∈ before, ((test z).run scope).1 = false) ∧ (test y).run scope = (true, later) ∧
        Scope.Reaches full scope later ∧ later.Settles names := by
  obtain ⟨found, success, -⟩ := (each x member).settles holds total scope under
  have some : (xs.find? fun y => ((test y).run scope).1).isSome = true :=
    List.find?_isSome.2 ⟨x, member, by rw [success]⟩
  obtain ⟨y, isFirst⟩ := Option.isSome_iff_exists.1 some
  obtain ⟨accepted, before, after, rfl, others⟩ := List.find?_eq_some_iff_append.1 isFirst
  have inside : y ∈ before ++ y :: after := by simp
  obtain ⟨later, success, reaches, settles⟩ :=
    (each y inside).settles (clear y inside accepted) total scope under
  exact ⟨before, y, after, later, rfl, fun z member => by simpa using others z member, success,
    reaches, settles⟩

end DecidesUnder

namespace ClassSet

variable {full : Scope} {set : ClassSet}

/-- There are different names of known classes. -/
def Ambiguous (set : ClassSet) (names : List String) : Prop :=
  ∃ a ∈ names, ∃ b ∈ names, a ≠ b ∧ (set.find? a).isSome = true ∧ (set.find? b).isSome = true

theorem checkWeakName_of_bound {pattern : String} {scope : Scope} {id : ClassId}
    (bound : scope.class? pattern = some id) (name : String) :
    set.checkWeakName pattern name scope =
      (if (set.classAt id).name = name then .unchanged else .rejected, scope) := by
  rw [checkWeakName, bound]

/-- A weak name that stands for a class of a name is accepted for it, whether it has been bound by
now or not. -/
theorem checkWeakName_of_under (injective : full.Injective set) {pattern name : String}
    {id : ClassId} (means : full.class? pattern = some id) (named : (set.classAt id).name = name)
    {scope : Scope} (under : scope.Under full) :
    ∃ check later, set.checkWeakName pattern name scope = (check, later) ∧
      check.accepted = true ∧ Scope.Reaches full scope later ∧ later.class? pattern = some id := by
  cases bound : scope.class? pattern with
  | some found =>
    obtain rfl := Option.some.inj ((under.class? bound).symm.trans means)
    rw [checkWeakName_of_bound bound, if_pos named]
    exact ⟨_, scope, rfl, rfl, .refl under, bound⟩
  | none =>
    obtain ⟨later, binds, reaches, after⟩ := Scope.bindClass?_of_under under injective means
    have known : set.find? name = some id := by
      rw [← named]
      exact injective.known pattern id means
    rw [checkWeakName, bound, known, Option.bind_some, binds]
    exact ⟨_, later, rfl, rfl, reaches, after⟩

/-- Whether a class name of a script agrees with the name of a class. -/
def namesAgree (set : ClassSet) (pattern name : String) : ScopeM Bool := do
  pure (← set.checkClassName pattern name).accepted

theorem run_namesAgree (set : ClassSet) (pattern name : String) (scope : Scope) :
    (set.namesAgree pattern name).run scope =
      (((set.checkClassName pattern name).run scope).1.accepted,
        ((set.checkClassName pattern name).run scope).2) := rfl

theorem namesAgree_decidesUnder (injective : full.Injective set) (pattern name : String) :
    DecidesUnder full (weakNames pattern) (set.namesAgree pattern name) := by
  by_cases free : isAnyName pattern = true
  · refine (DecidesUnder.pure full true).congr ?_ |>.of_eq ?_
    · intro scope
      rw [run_namesAgree, run_checkClassName, if_pos free]
      rfl
    · simp [weakNames, free]
  by_cases weak : isWeakName pattern = true
  · have run : ∀ scope, (set.namesAgree pattern name).run scope =
        ((set.checkWeakName pattern name scope).1.accepted,
          (set.checkWeakName pattern name scope).2) := by
      intro scope
      rw [run_namesAgree, run_checkClassName, if_neg free, if_neg (by simp [weak])]
    have only : weakNames pattern = [pattern] := by simp [weakNames, free, weak]
    rw [only]
    constructor
    · intro total scope same
      obtain ⟨id, means⟩ := Option.isSome_iff_exists.1 (total pattern List.mem_cons_self)
      rw [run, run, checkWeakName_of_bound ((same pattern List.mem_cons_self).trans means),
        checkWeakName_of_bound means]
    · intro holds total scope under
      obtain ⟨id, means⟩ := Option.isSome_iff_exists.1 (total pattern List.mem_cons_self)
      rw [run, checkWeakName_of_bound means] at holds
      split at holds
      · obtain ⟨check, later, success, accepted, reaches, bound⟩ :=
          checkWeakName_of_under injective means ‹_› under
        refine ⟨later, ?_, reaches, ?_⟩
        · rw [run, success, accepted]
        · intro name member
          rw [List.mem_singleton.1 member, bound]
          rfl
      · cases holds
  · refine (DecidesUnder.pure full (decide (pattern = name))).congr ?_ |>.of_eq ?_
    · intro scope
      rw [run_namesAgree, run_checkClassName, if_neg free, if_pos (by simpa using weak)]
      by_cases same : pattern = name
      · simp [same]
        rfl
      · simp [same]
        rfl
    · simp [weakNames, weak]

/-- A class name of a script that means another class than this one can only be accepted here while
it stands for nothing, and only if this class is known. -/
theorem open_of_namesAgree (injective : full.Injective set) {pattern name : String}
    (total : full.Settles (weakNames pattern)) {scope : Scope} (under : scope.Under full)
    (accepted : ((set.namesAgree pattern name).run scope).1 = true)
    (fails : ((set.namesAgree pattern name).run full).1 = false) :
    (set.find? name).isSome = true ∧ ¬scope.Settles (weakNames pattern) := by
  have decides := namesAgree_decidesUnder injective pattern name
  have unsettled : ¬scope.Settles (weakNames pattern) := by
    intro settles
    rw [decides.decides total scope (settles.same under), fails] at accepted
    cases accepted
  refine ⟨?_, unsettled⟩
  change ((set.checkClassName pattern name).run scope).1.accepted = true at accepted
  rw [run_checkClassName] at accepted
  split at accepted
  · rename_i free
    refine absurd (fun name member => ?_) unsettled
    rw [(mem_weakNames.1 member).2.2] at free
    cases free
  split at accepted
  · rename_i strong
    refine absurd (fun name member => ?_) unsettled
    rw [(mem_weakNames.1 member).2.1] at strong
    cases strong
  · unfold checkWeakName at accepted
    split at accepted
    · rename_i id bound
      refine absurd (fun name member => ?_) unsettled
      rw [(mem_weakNames.1 member).1, bound]
      rfl
    · cases known : set.find? name with
      | none =>
        rw [known] at accepted
        cases accepted
      | some id => rfl

/-- A class that a weak class name means is known. -/
theorem known_of_namesAgree (injective : full.Injective set) {pattern name : String}
    (total : full.Settles (weakNames pattern)) (weak : weakNames pattern ≠ [])
    (holds : ((set.namesAgree pattern name).run full).1 = true) :
    (set.find? name).isSome = true := by
  obtain ⟨written, member⟩ := List.exists_mem_of_ne_nil _ weak
  obtain ⟨id, means⟩ := Option.isSome_iff_exists.1 (total written member)
  obtain ⟨rfl, isWeak, notAny⟩ := mem_weakNames.1 member
  change ((set.checkClassName written name).run full).1.accepted = true at holds
  rw [run_checkClassName, if_neg (by simp [notAny]), if_neg (by simp [isWeak]),
    checkWeakName_of_bound means] at holds
  split at holds
  · rename_i named
    rw [← named, injective.known written id means]
    rfl
  · cases holds

/-- If one of some names fits and no other one could be taken, then only those are accepted that
fit. -/
theorem fits_of_namesAgree (injective : full.Injective set) {pattern : String}
    (total : full.Settles (weakNames pattern)) {scope : Scope} (under : scope.Under full)
    {names : List String} (clear : set.Ambiguous names → scope.Settles (weakNames pattern))
    {fitting : String} (member : fitting ∈ names)
    (fits : ((set.namesAgree pattern fitting).run full).1 = true)
    {name : String} (inside : name ∈ names)
    (accepted : ((set.namesAgree pattern name).run scope).1 = true) :
    ((set.namesAgree pattern name).run full).1 = true := by
  by_contra fails
  rw [Bool.not_eq_true] at fails
  obtain ⟨known, unsettled⟩ := open_of_namesAgree injective total under accepted fails
  have weak : weakNames pattern ≠ [] := by
    intro none
    exact unsettled fun name member => nomatch none ▸ member
  have different : name ≠ fitting := by
    rintro rfl
    rw [fits] at fails
    cases fails
  exact unsettled (clear ⟨name, inside, fitting, member, different, known,
    known_of_namesAgree injective total weak fits⟩)

/-- A class name of a script is matched with one of several names if some of them fits and no other
one could be taken. -/
theorem matchFirst_of_under (injective : full.Injective set) {pattern : String}
    (total : full.Settles (weakNames pattern)) {scope : Scope} (under : scope.Under full)
    {names : List String} (clear : set.Ambiguous names → scope.Settles (weakNames pattern))
    {fitting : String} (member : fitting ∈ names)
    (fits : ((set.namesAgree pattern fitting).run full).1 = true) :
    ∃ later, (set.matchFirst pattern names).run scope = (true, later) ∧
      Scope.Reaches full scope later ∧ later.Settles (weakNames pattern) := by
  obtain ⟨before, name, after, later, rfl, others, success, result⟩ :=
    DecidesUnder.exists_first (fun name _ => namesAgree_decidesUnder injective pattern name)
      total under member fits fun name inside =>
        fits_of_namesAgree injective total under clear member fits inside
  refine ⟨later, ?_, result⟩
  clear clear member
  induction before with
  | nil =>
    rw [run_namesAgree] at success
    obtain ⟨accepted, rfl⟩ := Prod.mk.inj success
    rw [List.nil_append, run_matchFirst_cons, if_pos accepted]
  | cons other before ih =>
    have first := others other List.mem_cons_self
    rw [List.cons_append, run_matchFirst_cons, if_neg (Bool.not_eq_true _ ▸ first)]
    exact ih fun z inside => others z (.tail _ inside)

theorem typesAgree_decidesUnder (injective : full.Injective set) (pattern type : TypeDesc) :
    DecidesUnder full pattern.weakNames (set.typesAgree pattern type) := by
  unfold typesAgree checkType
  split
  · exact .false full _
  · split
    · rename_i expected name base _
      refine (namesAgree_decidesUnder injective expected name).of_eq ?_
      rw [TypeDesc.weakNames, base]
    · rename_i notBoth
      cases base : pattern.base with
      | object expected =>
        have different : BaseType.object expected ≠ type.base :=
          fun same => notBoth expected expected base same.symm
        rw [if_neg different]
        exact .false full _
      | _ =>
        refine (DecidesUnder.pure full _).of_eq ?_
        rw [TypeDesc.weakNames, base]

/-- A type is a class exactly if it is no array and names the class. -/
theorem typesAgree_object (set : ClassSet) (pattern : TypeDesc) (name : String) :
    set.typesAgree pattern (.object name) =
      match pattern.base with
      | .object expected => if pattern.dims = 0 then set.namesAgree expected name else pure false
      | _ => pure false := by
  obtain ⟨dims, base⟩ := pattern
  unfold typesAgree checkType
  by_cases noArray : dims = 0
  · subst noArray
    cases base <;> rfl
  · rw [if_pos (show (⟨dims, base⟩ : TypeDesc).dims ≠ (TypeDesc.object name).dims from noArray)]
    cases base with
    | object expected => exact (if_neg noArray).symm
    | _ => rfl

/-- If one of some catch types fits and no other one could be taken, then only those are accepted
that fit. -/
theorem fits_of_typesAgree (injective : full.Injective set) {pattern : TypeDesc}
    (total : full.Settles pattern.weakNames) {scope : Scope} (under : scope.Under full)
    {names : List String} (clear : set.Ambiguous names → scope.Settles pattern.weakNames)
    {fitting : String} (member : fitting ∈ names)
    (fits : ((set.typesAgree pattern (.object fitting)).run full).1 = true)
    {name : String} (inside : name ∈ names)
    (accepted : ((set.typesAgree pattern (.object name)).run scope).1 = true) :
    ((set.typesAgree pattern (.object name)).run full).1 = true := by
  rw [typesAgree_object] at fits accepted ⊢
  rw [TypeDesc.weakNames] at total clear
  cases base : pattern.base with
  | object expected =>
    rw [base] at fits accepted total clear
    dsimp only at fits accepted total clear ⊢
    by_cases noArray : pattern.dims = 0
    · rw [if_pos noArray] at fits accepted ⊢
      exact fits_of_namesAgree injective total under clear member fits inside accepted
    · rw [if_neg noArray] at fits
      cases fits
  | _ =>
    rw [base] at fits
    cases fits

theorem run_checkParams (set : ClassSet) (ps ts : List TypeDesc) (soFar : TypeCheck)
    (scope : Scope) :
    (match (set.checkParams ps ts soFar).run scope with
      | .ok _ later => (true, later)
      | .error _ later => (false, later)) =
      (all (fun e => set.typesAgree e.1 e.2) (ps.zip ts)).run scope := by
  induction ps generalizing ts soFar scope with
  | nil => rfl
  | cons p ps ih =>
    cases ts with
    | nil => rfl
    | cons t ts =>
      have first : (set.typesAgree p t).run scope = (((set.checkType p t).run scope).1.accepted,
        ((set.checkType p t).run scope).2) := rfl
      rw [run_checkParams_cons, List.zip_cons_cons, all, both, run_bind, first]
      cases ((set.checkType p t).run scope).1.accepted with
      | true => exact ih ts _ _
      | false => rfl

/-- Method types agree if they have equally many parameters, and parameters and results agree. -/
theorem run_methodTypesAgree (set : ClassSet) (pattern type : MethodDesc) (scope : Scope) :
    (set.methodTypesAgree pattern type).run scope =
      if pattern.params.length ≠ type.params.length then (false, scope)
      else (both (all (fun e => set.typesAgree e.1 e.2) (pattern.params.zip type.params))
        (all (fun e => set.typesAgree e.1 e.2) [(pattern.result, type.result)])).run scope := by
  change set.methodTypesAgree pattern type scope = _
  unfold methodTypesAgree checkMethodTypes
  by_cases counts : pattern.params.length ≠ type.params.length
  · rw [if_pos counts, if_pos counts]
    rfl
  · rw [if_neg counts, if_neg counts, EStateM.run_bind, both, run_bind,
      ← run_checkParams set _ _ .unchanged]
    cases (set.checkParams pattern.params type.params .unchanged).run scope with
    | error e later => rfl
    | ok check later => exact run_checkParams set [pattern.result] [type.result] check later

theorem methodTypesAgree_decidesUnder (injective : full.Injective set)
    (pattern type : MethodDesc) :
    DecidesUnder full pattern.weakNames (set.methodTypesAgree pattern type) := by
  by_cases same : pattern.params.length = type.params.length
  · have params : DecidesUnder full (pattern.params.flatMap TypeDesc.weakNames)
        (all (fun e => set.typesAgree e.1 e.2) (pattern.params.zip type.params)) := by
      refine (DecidesUnder.all _ fun e _ => typesAgree_decidesUnder injective e.1 e.2).of_eq ?_
      rw [← List.map_fst_zip (Nat.le_of_eq same), List.flatMap_map, List.map_fst_zip]
      exact Nat.le_of_eq same
    have result : DecidesUnder full pattern.result.weakNames
        (all (fun e => set.typesAgree e.1 e.2) [(pattern.result, type.result)]) := by
      refine (DecidesUnder.all _ fun e _ => typesAgree_decidesUnder injective e.1 e.2).of_eq ?_
      simp
    refine (params.both result).congr fun scope => ?_
    rw [run_methodTypesAgree, if_neg (by simpa using same)]
  · refine (DecidesUnder.false full _).congr fun scope => ?_
    rw [run_methodTypesAgree, if_pos same]
    rfl

end ClassSet

/-- What a check looks at: its weak class names, and whether it can succeed with different bindings
of them. -/
structure Look where
  names : List String
  ambiguous : Prop

namespace Look

/-- Where a check can succeed with different bindings, its names have been looked at before. -/
def Settled : List String → List Look → Prop
  | _, [] => True
  | before, look :: looks =>
    (look.ambiguous → ∀ name ∈ look.names, name ∈ before) ∧ Settled (before ++ look.names) looks

def allNames (looks : List Look) : List String := looks.flatMap names

@[simp] theorem allNames_append (looks looks' : List Look) :
    allNames (looks ++ looks') = allNames looks ++ allNames looks' := List.flatMap_append

theorem settled_append {before : List String} {looks looks' : List Look} :
    Settled before (looks ++ looks') ↔
      Settled before looks ∧ Settled (before ++ allNames looks) looks' := by
  induction looks generalizing before with
  | nil => simp [Settled, allNames]
  | cons look looks ih =>
    rw [List.cons_append, Settled, Settled, ih, and_assoc]
    simp [allNames]

end Look

/-- Checks succeed with a result from every part of the full binding in which the names are settled
that they could bind in different ways, and their names are settled afterwards. -/
def Passes {ε α : Type} (full : Scope) (looks : List Look) (m : EStateM ε Scope α) (x : α) : Prop :=
  full.Settles (Look.allNames looks) → ∀ before (scope : Scope), Look.Settled before looks →
    scope.Under full → scope.Settles before →
      ∃ later, m.run scope = .ok x later ∧ Scope.Reaches full scope later ∧
        later.Settles (Look.allNames looks)

namespace Passes

variable {ε α β : Type} {full : Scope} {looks looks' : List Look}

protected theorem pure (full : Scope) (x : α) :
    Passes full [] (pure x : EStateM ε Scope α) x := by
  intro _ _ scope _ under _
  exact ⟨scope, rfl, .refl under, fun _ member => nomatch member⟩

protected theorem bind {m : EStateM ε Scope α} {next : α → EStateM ε Scope β} {x : α} {y : β}
    (first : Passes full looks m x) (rest : Passes full looks' (next x) y) :
    Passes full (looks ++ looks') (m >>= next) y := by
  intro total before scope settled under known
  rw [Look.allNames_append] at total
  obtain ⟨settledFirst, settledRest⟩ := Look.settled_append.1 settled
  obtain ⟨middle, one, toMiddle, middleKnows⟩ :=
    first (total.mono fun _ member => List.mem_append_left _ member) before scope settledFirst
      under known
  obtain ⟨later, two, toLater, laterKnows⟩ :=
    rest (total.mono fun _ member => List.mem_append_right _ member) _ middle settledRest
      toMiddle.under ((toMiddle.settles known).append middleKnows)
  refine ⟨later, ?_, toMiddle.trans toLater, ?_⟩
  · rw [EStateM.run_bind, one]
    exact two
  · rw [Look.allNames_append]
    exact (toLater.settles middleKnows).append laterKnows

end Passes

end JvmPatch
