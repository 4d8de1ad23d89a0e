import JvmPatch.Proofs.Table
import JvmPatch.Scope.Types

/-! Bindings are only ever added. A comparison that has succeeded once succeeds again with any
further bindings, and then binds nothing, also when classes have been added in the meantime. -/

set_option autoImplicit false

namespace JvmPatch

def ClassSet.HasClass (set : ClassSet) (id : ClassId) : Prop := id.index < set.classes.size

/-- The classes of one class set keep their names in another. -/
def ClassSet.KeepsNames (set later : ClassSet) : Prop :=
  ∀ id, set.HasClass id → (later.classAt id).name = (set.classAt id).name

theorem ClassSet.find?_eq_some {set : ClassSet} {name : String} {id : ClassId}
    (found : set.find? name = some id) : set.HasClass id ∧ (set.classAt id).name = name := by
  rw [find?, Option.map_eq_some_iff] at found
  obtain ⟨index, found, rfl⟩ := found
  obtain ⟨known, holds, -⟩ := Array.findIdx?_eq_some_iff_getElem.1 found
  exact ⟨known, by simpa [classAt, Array.getElem?_eq_getElem known] using holds⟩

namespace Scope

/-- The class names and the labels of a scope stand for the same in another. -/
structure Extends (later scope : Scope) : Prop where
  classes : ∀ key id, scope.class? key = some id → later.class? key = some id
  labels : ∀ key label, scope.labels.get? key = some label → later.labels.get? key = some label

theorem Extends.refl (scope : Scope) : scope.Extends scope :=
  ⟨fun _ _ h => h, fun _ _ h => h⟩

theorem Extends.trans {scope later latest : Scope} (second : latest.Extends later)
    (first : later.Extends scope) : latest.Extends scope :=
  ⟨fun key id h => second.classes key id (first.classes key id h),
    fun key label h => second.labels key label (first.labels key label h)⟩

/-- All classes that names stand for are known. -/
def Knows (scope : Scope) (set : ClassSet) : Prop :=
  ∀ key id, scope.class? key = some id → set.HasClass id

/-- What a test can do to a scope: it adds bindings, class names are bound to known classes, and
what was found in bodies stays. -/
structure Widens (set : ClassSet) (scope later : Scope) : Prop where
  extends_ : later.Extends scope
  knows : scope.Knows set → later.Knows set
  bodies : later.bodies = scope.bodies

theorem Widens.refl (set : ClassSet) (scope : Scope) : Widens set scope scope :=
  ⟨.refl scope, id, rfl⟩

theorem Widens.trans {set : ClassSet} {scope later latest : Scope} (first : Widens set scope later)
    (second : Widens set later latest) : Widens set scope latest :=
  ⟨second.extends_.trans first.extends_, fun h => second.knows (first.knows h),
    second.bodies.trans first.bodies⟩

theorem Widens.knowsBefore {set : ClassSet} {scope later : Scope} (widens : Widens set scope later)
    (knows : later.Knows set) : scope.Knows set :=
  fun key id bound => knows key id (widens.extends_.classes key id bound)

/-- Only the members that names stand for differ. -/
theorem widens_of_members {set : ClassSet} {scope later : Scope}
    (classes : later.classes = scope.classes) (labels : later.labels = scope.labels)
    (bodies : later.bodies = scope.bodies) : Widens set scope later := by
  refine ⟨⟨fun key id h => ?_, fun key label h => ?_⟩, fun h key id found => h key id ?_, bodies⟩
  · rwa [class?, classes]
  · rwa [labels]
  · rwa [class?, classes] at found

theorem bindClass?_eq_some {scope later : Scope} {key : String} {id : ClassId}
    (bound : scope.bindClass? key id = some later) :
    later.class? key = some id ∧ later.Extends scope ∧ later.bodies = scope.bodies ∧
      ∀ k found, later.class? k = some found → scope.class? k = some found ∨ found = id := by
  unfold bindClass? at bound
  split at bound
  · rename_i found already
    split at bound
    · rename_i same
      subst same
      obtain rfl := Option.some.inj bound
      exact ⟨already, .refl _, rfl, fun _ _ h => .inl h⟩
    · simp at bound
  · rename_i free
    split at bound
    · simp at bound
    · obtain rfl := Option.some.inj bound
      refine ⟨Table.get?_insert_self _ _ _, ⟨fun k found h => ?_, fun _ _ h => h⟩, rfl,
        fun k found h => ?_⟩
      · by_cases same : k = key
        · subst same
          rw [free] at h
          simp at h
        · exact (Table.get?_insert_of_ne _ _ same).trans h
      · by_cases same : k = key
        · subst same
          exact .inr (Option.some.inj ((Table.get?_insert_self _ _ _).symm.trans h)).symm
        · exact .inl ((Table.get?_insert_of_ne _ _ same).symm.trans h)

theorem bindClass?_widens {set : ClassSet} {scope later : Scope} {key : String} {id : ClassId}
    (known : set.HasClass id) (bound : scope.bindClass? key id = some later) :
    Widens set scope later := by
  obtain ⟨-, extended, bodies, only⟩ := bindClass?_eq_some bound
  refine ⟨extended, fun h k found bound => ?_, bodies⟩
  rcases only k found bound with earlier | rfl
  · exact h k found earlier
  · exact known

theorem members_of_bindClass? {scope later : Scope} {key : String} {id : ClassId}
    (bound : scope.bindClass? key id = some later) :
    later.fields = scope.fields ∧ later.methods = scope.methods := by
  unfold bindClass? at bound
  split at bound
  · split at bound
    · obtain rfl := Option.some.inj bound
      exact ⟨rfl, rfl⟩
    · simp at bound
  · split at bound
    · simp at bound
    · obtain rfl := Option.some.inj bound
      exact ⟨rfl, rfl⟩

theorem bindLabel?_eq_some {scope later : Scope} {body : MethodId} {name : String} {label : Label}
    (bound : scope.bindLabel? body name label = some later) :
    later.label? body name = some label ∧ later.Extends scope ∧
      later.classes = scope.classes ∧ later.bodies = scope.bodies := by
  unfold bindLabel? at bound
  split at bound
  · rename_i found already
    split at bound
    · rename_i same
      subst same
      obtain rfl := Option.some.inj bound
      exact ⟨already, .refl _, rfl, rfl⟩
    · simp at bound
  · rename_i free
    split at bound
    · simp at bound
    · obtain rfl := Option.some.inj bound
      refine ⟨Table.get?_insert_self _ _ _, ⟨fun _ _ h => h, fun k found h => ?_⟩, rfl, rfl⟩
      by_cases same : k = ⟨body, name⟩
      · subst same
        rw [label?] at free
        rw [free] at h
        simp at h
      · exact (Table.get?_insert_of_ne _ _ same).trans h

theorem bindLabel?_widens {set : ClassSet} {scope later : Scope} {body : MethodId} {name : String}
    {label : Label} (bound : scope.bindLabel? body name label = some later) :
    Widens set scope later := by
  obtain ⟨-, extended, classes, bodies⟩ := bindLabel?_eq_some bound
  refine ⟨extended, fun h k found bound => h k found ?_, bodies⟩
  rwa [class?, classes] at bound

theorem bindField?_widens {set set' : ClassSet} {scope later : Scope} {owner : ClassId}
    {key : MemberKey} {id : FieldId} (bound : scope.bindField? set' owner key id = some later) :
    Widens set scope later := by
  unfold bindField? at bound
  split at bound
  · split at bound
    · obtain rfl := Option.some.inj bound
      exact .refl _ _
    · simp at bound
  · dsimp only at bound
    split at bound
    · simp at bound
    · obtain rfl := Option.some.inj bound
      exact widens_of_members rfl rfl rfl

theorem bindMethod?_widens {set set' : ClassSet} {scope later : Scope} {owner : ClassId}
    {key : MemberKey} {id : MethodId} (bound : scope.bindMethod? set' owner key id = some later) :
    Widens set scope later := by
  unfold bindMethod? at bound
  split at bound
  · split at bound
    · obtain rfl := Option.some.inj bound
      exact .refl _ _
    · simp at bound
  · dsimp only at bound
    split at bound
    · simp at bound
    · obtain rfl := Option.some.inj bound
      exact widens_of_members rfl rfl rfl

end Scope

namespace ScopeM

variable {α : Type}

/-- A test does to every scope what tests can do. -/
def Widening (set : ClassSet) (test : ScopeM α) : Prop :=
  ∀ scope, Scope.Widens set scope (test.run scope).2

theorem Widening.pure (set : ClassSet) (x : α) : Widening set (pure x) :=
  fun scope => .refl set scope

theorem Widening.bind {β : Type} {set : ClassSet} {first : ScopeM α} {next : α → ScopeM β}
    (firstWidens : Widening set first) (nextWidens : ∀ x, Widening set (next x)) :
    Widening set (first >>= next) := by
  intro scope
  exact (firstWidens scope).trans (nextWidens _ _)

theorem run_bind {β : Type} (first : ScopeM α) (next : α → ScopeM β) (scope : Scope) :
    (first >>= next).run scope = (next (first.run scope).1).run (first.run scope).2 := rfl

theorem run_get (scope : Scope) : (get : ScopeM Scope).run scope = (scope, scope) := rfl

theorem run_update (f : Scope → Option Scope) (scope : Scope) :
    (update f).run scope = ((f scope).isSome, (f scope).getD scope) := by
  simp only [update, run_bind, run_get]
  cases f scope with
  | none => rfl
  | some later => rfl

theorem Widening.update {set : ClassSet} {f : Scope → Option Scope}
    (widens : ∀ scope later, f scope = some later → Scope.Widens set scope later) :
    Widening set (update f) := by
  intro scope
  rw [run_update]
  cases h : f scope with
  | none => exact .refl set scope
  | some later => exact widens scope later h

theorem Widening.both {set : ClassSet} {first second : ScopeM Bool}
    (firstWidens : Widening set first) (secondWidens : Widening set second) :
    Widening set (both first second) := by
  refine firstWidens.bind fun accepted => ?_
  cases accepted with
  | true => exact secondWidens
  | false => exact .pure set false

theorem Widening.all {set : ClassSet} {test : α → ScopeM Bool} {xs : List α}
    (widens : ∀ x ∈ xs, Widening set (test x)) : Widening set (all test xs) := by
  induction xs with
  | nil => exact .pure set true
  | cons x xs ih =>
    exact (widens x List.mem_cons_self).both (ih fun y h => widens y (.tail _ h))

/-- Once a test has succeeded, another one succeeds with any further bindings, and binds nothing. -/
def Recurs (set : ClassSet) (test again : ScopeM Bool) : Prop :=
  ∀ scope found, test.run scope = (true, found) → found.Knows set →
    ∀ later : Scope, later.Extends found → again.run later = (true, later)

theorem Recurs.pure (set : ClassSet) {accepted accepted' : Bool}
    (same : accepted = true → accepted' = true) :
    Recurs set (pure accepted) (pure accepted') := by
  intro scope found success _ later _
  obtain ⟨holds, -⟩ := Prod.mk.inj success
  rw [same holds]
  rfl

theorem run_both_eq_true {first second : ScopeM Bool} {scope found : Scope}
    (success : (both first second).run scope = (true, found)) :
    ∃ middle, first.run scope = (true, middle) ∧ second.run middle = (true, found) := by
  rw [both, run_bind] at success
  cases h : first.run scope with
  | mk accepted middle =>
    rw [h] at success
    cases accepted with
    | true => exact ⟨middle, rfl, success⟩
    | false => cases success

theorem run_both_of_true {first second : ScopeM Bool} {scope middle : Scope}
    (success : first.run scope = (true, middle)) :
    (both first second).run scope = second.run middle := by
  rw [both, run_bind, success]
  rfl

theorem Recurs.both {set : ClassSet} {first second first' second' : ScopeM Bool}
    (firstRecurs : Recurs set first first') (secondRecurs : Recurs set second second')
    (widens : Widening set second) : Recurs set (both first second) (both first' second') := by
  intro scope found success knows later extended
  obtain ⟨middle, one, two⟩ := run_both_eq_true success
  have step : Scope.Widens set middle found := by
    have := widens middle
    rwa [two] at this
  rw [run_both_of_true (firstRecurs scope middle one (step.knowsBefore knows) later
    (extended.trans step.extends_))]
  exact secondRecurs middle found two knows later extended

theorem Recurs.all {set : ClassSet} {test test' : α → ScopeM Bool} {xs : List α}
    (recurs : ∀ x ∈ xs, Recurs set (test x) (test' x))
    (widens : ∀ x ∈ xs, Widening set (test x)) : Recurs set (all test xs) (all test' xs) := by
  induction xs with
  | nil => exact .pure set id
  | cons x xs ih =>
    exact (recurs x List.mem_cons_self).both
      (ih (fun y h => recurs y (.tail _ h)) fun y h => widens y (.tail _ h))
      (.all fun y h => widens y (.tail _ h))

end ScopeM

end JvmPatch
