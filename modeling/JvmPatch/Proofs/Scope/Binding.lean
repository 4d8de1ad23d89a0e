import JvmPatch.Proofs.Scope.Types
import Mathlib.Logic.Relation

/-! The steps by which a scope changes. Whatever binds names does so one name at a time, by one of
the four ways to bind; what each of them keeps is kept by all comparisons, also by those that fail
halfway. -/

set_option autoImplicit false

namespace JvmPatch

namespace Scope

section Inversion

variable {scope later : Scope}

/-- A weak class name can be bound if neither it nor the class is taken. -/
theorem bindClass?_cases {key : String} {id : ClassId}
    (bound : scope.bindClass? key id = some later) :
    later = scope ∨ scope.class? key = none ∧ (∀ k, scope.class? k ≠ some id) ∧
      later = { scope with classes := scope.classes.insert key id } := by
  unfold bindClass? at bound
  split at bound
  · split at bound
    · exact .inl (Option.some.inj bound).symm
    · cases bound
  · split at bound
    · cases bound
    rename_i free
    refine .inr ⟨‹_›, fun k named => free ?_, (Option.some.inj bound).symm⟩
    rw [classKey?, Table.findKey?, Option.isSome_map, List.find?_isSome]
    exact ⟨(k, id), Table.mem_entries_of_get? named, by simp⟩

/-- A key can be bound to a field that has no key, unless it stands for a field that the class
declares. -/
theorem bindField?_cases {set : ClassSet} {owner : ClassId} {key : MemberKey} {id : FieldId}
    (bound : scope.bindField? set owner key id = some later) :
    later = scope ∨ scope.fields.get? id = none ∧
      (∀ other, scope.fields.get? other = some key → (set.fieldAt other).declaredBy ≠ owner) ∧
      later = { scope with fields := scope.fields.insert id key } := by
  unfold bindField? at bound
  dsimp only at bound
  split at bound
  · split at bound
    · exact .inl (Option.some.inj bound).symm
    · cases bound
  · split at bound
    · cases bound
    rename_i unbound free
    refine .inr ⟨unbound, fun other isBound own => free ?_, (Option.some.inj bound).symm⟩
    obtain ⟨found, e, member, isKey, isFound, declared⟩ :=
      Table.exists_find?_of_get? (p := fun id => (set.fieldAt id).declaredBy == owner) isBound
        (by simp [own])
    have different : found ≠ id := isKey ▸ Table.ne_of_get?_eq_none unbound e member
    have stands : scope.field? set owner key = some found := by
      unfold field? fieldsOf
      simp only [isFound]
    simpa [stands, different] using declared

/-- A key can be bound to a method that has no key, unless it stands for a method that the class
declares. -/
theorem bindMethod?_cases {set : ClassSet} {owner : ClassId} {key : MemberKey} {id : MethodId}
    (bound : scope.bindMethod? set owner key id = some later) :
    later = scope ∨ scope.methods.get? id = none ∧
      (∀ other, scope.methods.get? other = some key → (set.methodAt other).declaredBy ≠ owner) ∧
      later = { scope with methods := scope.methods.insert id key } := by
  unfold bindMethod? at bound
  dsimp only at bound
  split at bound
  · split at bound
    · exact .inl (Option.some.inj bound).symm
    · cases bound
  · split at bound
    · cases bound
    rename_i unbound free
    refine .inr ⟨unbound, fun other isBound own => free ?_, (Option.some.inj bound).symm⟩
    obtain ⟨found, e, member, isKey, isFound, declared⟩ :=
      Table.exists_find?_of_get? (p := fun id => (set.methodAt id).declaredBy == owner) isBound
        (by simp [own])
    have different : found ≠ id := isKey ▸ Table.ne_of_get?_eq_none unbound e member
    have stands : scope.method? set owner key = some found := by
      unfold method? methodsOf
      simp only [isFound]
    simpa [stands, different] using declared

/-- A weak label can be bound in a body if neither it nor the label is taken there. -/
theorem bindLabel?_cases {body : MethodId} {name : String} {l : Label}
    (bound : scope.bindLabel? body name l = some later) :
    later = scope ∨ scope.label? body name = none ∧ (∀ n, scope.label? body n ≠ some l) ∧
      later = { scope with labels := scope.labels.insert ⟨body, name⟩ l } := by
  unfold bindLabel? at bound
  split at bound
  · split at bound
    · exact .inl (Option.some.inj bound).symm
    · cases bound
  · split at bound
    · cases bound
    rename_i free
    refine .inr ⟨‹_›, fun n named => free ?_, (Option.some.inj bound).symm⟩
    exact List.any_eq_true.2 ⟨_, Table.mem_entries_of_get? named, by simp⟩

theorem labels_of_bindClass? {key : String} {id : ClassId}
    (bound : scope.bindClass? key id = some later) : later.labels = scope.labels := by
  rcases bindClass?_cases bound with rfl | ⟨-, -, rfl⟩ <;> rfl

/-- Binding a member binds no label and notes nothing about a body. -/
theorem frame_bindField? {set : ClassSet} {owner : ClassId} {key : MemberKey} {id : FieldId}
    (bound : scope.bindField? set owner key id = some later) :
    later.labels = scope.labels ∧ later.bodies = scope.bodies := by
  rcases bindField?_cases bound with rfl | ⟨-, -, rfl⟩ <;> exact ⟨rfl, rfl⟩

theorem frame_bindMethod? {set : ClassSet} {owner : ClassId} {key : MemberKey} {id : MethodId}
    (bound : scope.bindMethod? set owner key id = some later) :
    later.labels = scope.labels ∧ later.bodies = scope.bodies := by
  rcases bindMethod?_cases bound with rfl | ⟨-, -, rfl⟩ <;> exact ⟨rfl, rfl⟩

end Inversion

/-- Which labels may get names, and which members may be bound to which keys through which
classes. -/
structure Permit where
  label : MethodId → Label → Prop
  field : ClassSet → ClassId → MemberKey → FieldId → Prop
  method : ClassSet → ClassId → MemberKey → MethodId → Prop

def Permit.everything : Permit := ⟨fun _ _ => True, fun _ _ _ _ => True, fun _ _ _ _ => True⟩

/-- A name is bound as permitted. -/
inductive Binds (may : Permit) (scope later : Scope) : Prop where
  | cls {key : String} {id : ClassId} : scope.bindClass? key id = some later → Binds may scope later
  | field {set : ClassSet} {owner : ClassId} {key : MemberKey} {id : FieldId} :
      may.field set owner key id → scope.bindField? set owner key id = some later →
        Binds may scope later
  | method {set : ClassSet} {owner : ClassId} {key : MemberKey} {id : MethodId} :
      may.method set owner key id → scope.bindMethod? set owner key id = some later →
      Binds may scope later
  | label {body : MethodId} {name : String} {l : Label} :
      may.label body l → scope.bindLabel? body name l = some later → Binds may scope later

/-- Names are bound as permitted, one after the other. -/
abbrev Gains (may : Permit) : Scope → Scope → Prop := Relation.ReflTransGen (Binds may)

/-- A step of a trial: a name is bound, what was found in a body is noted, or a body is
forgotten. -/
inductive Step (may : Permit) (scope : Scope) : Scope → Prop where
  | bind {later : Scope} : Binds may scope later → Step may scope later
  | record (body : MethodId) (places : MethodMatch) : Step may scope (scope.recordMatch body places)
  | clear (body : MethodId) : Step may scope (scope.clearBody body)

/-- The scopes to which steps of a trial lead. -/
abbrev Steps (may : Permit) : Scope → Scope → Prop := Relation.ReflTransGen (Step may)

variable {may : Permit} {scope later latest : Scope}

theorem Gains.steps (gains : Gains may scope later) : Steps may scope later :=
  gains.lift id fun _ _ => .bind

/-- Binding a name keeps what names of classes and labels stand for. -/
theorem Binds.extends_ (binds : Binds may scope later) : later.Extends scope := by
  cases binds with
  | cls bound => exact (bindClass?_eq_some bound).2.1
  | @field set _ _ _ _ bound =>
    have widens : Widens set scope later := bindField?_widens bound
    exact widens.extends_
  | @method set _ _ _ _ bound =>
    have widens : Widens set scope later := bindMethod?_widens bound
    exact widens.extends_
  | label _ bound => exact (bindLabel?_eq_some bound).2.1

theorem Gains.extends_ (gains : Gains may scope later) : later.Extends scope := by
  induction gains with
  | refl => exact .refl scope
  | tail _ binds ih => exact binds.extends_.trans ih

/-- What names stand for in a scope they stand for in another one, too. -/
structure KeptBy (scope later : Scope) : Prop where
  classes : ∀ key id, scope.classes.get? key = some id → later.classes.get? key = some id
  methods : ∀ id key, scope.methods.get? id = some key → later.methods.get? id = some key
  fields : ∀ id key, scope.fields.get? id = some key → later.fields.get? id = some key
  labels : ∀ key l, scope.labels.get? key = some l → later.labels.get? key = some l

theorem KeptBy.refl (scope : Scope) : scope.KeptBy scope :=
  ⟨fun _ _ h => h, fun _ _ h => h, fun _ _ h => h, fun _ _ h => h⟩

theorem KeptBy.trans (first : scope.KeptBy later) (second : later.KeptBy latest) :
    scope.KeptBy latest :=
  ⟨fun key id h => second.classes key id (first.classes key id h),
    fun id key h => second.methods id key (first.methods id key h),
    fun id key h => second.fields id key (first.fields id key h),
    fun key l h => second.labels key l (first.labels key l h)⟩

/-- Binding a name keeps what all other names stand for. -/
theorem Binds.keptBy (binds : Binds may scope later) : scope.KeptBy later := by
  have kept := binds.extends_
  cases binds with
  | cls bound =>
    obtain ⟨fields, methods⟩ := members_of_bindClass? bound
    exact ⟨kept.classes, fun _ _ h => by rwa [methods], fun _ _ h => by rwa [fields], kept.labels⟩
  | field _ bound =>
    rcases bindField?_cases bound with rfl | ⟨unbound, -, rfl⟩
    · exact .refl _
    · refine ⟨kept.classes, fun _ _ h => h, fun id key h => ?_, kept.labels⟩
      exact Table.get?_insert_of_get? unbound h
  | method _ bound =>
    rcases bindMethod?_cases bound with rfl | ⟨unbound, -, rfl⟩
    · exact .refl _
    · refine ⟨kept.classes, fun id key h => ?_, fun _ _ h => h, kept.labels⟩
      exact Table.get?_insert_of_get? unbound h
  | label _ bound =>
    rcases bindLabel?_cases bound with rfl | ⟨-, -, rfl⟩
    · exact .refl _
    · exact ⟨kept.classes, fun _ _ h => h, fun _ _ h => h, kept.labels⟩

theorem Gains.keptBy (gains : Gains may scope later) : scope.KeptBy later := by
  induction gains with
  | refl => exact .refl scope
  | tail _ binds ih => exact ih.trans binds.keptBy

end Scope

namespace ScopeM

variable {α β : Type} {may : Scope.Permit}

/-- A test changes the scope by binding names as permitted. -/
def Gains (may : Scope.Permit) (test : ScopeM α) : Prop :=
  ∀ scope : Scope, scope.Gains may (test.run scope).2

namespace Gains

protected theorem pure (x : α) : Gains may (pure x) := fun _ => .refl

theorem bind {first : ScopeM α} {next : α → ScopeM β} (one : Gains may first)
    (rest : ∀ x, Gains may (next x)) : Gains may (first >>= next) :=
  fun scope => (one scope).trans (rest _ _)

theorem update {f : Scope → Option Scope}
    (binds : ∀ scope later, f scope = some later → Scope.Binds may scope later) :
    Gains may (update f) := by
  intro scope
  rw [run_update]
  cases found : f scope with
  | none => exact .refl
  | some later => exact .single (binds scope later found)

theorem both {first second : ScopeM Bool} (one : Gains may first) (two : Gains may second) :
    Gains may (both first second) := by
  refine one.bind fun accepted => ?_
  cases accepted with
  | true => exact two
  | false => exact .pure false

theorem all {test : α → ScopeM Bool} {xs : List α} (each : ∀ x ∈ xs, Gains may (test x)) :
    Gains may (all test xs) := by
  induction xs with
  | nil => exact .pure true
  | cons x xs ih => exact (each x List.mem_cons_self).both (ih fun y h => each y (.tail _ h))

end Gains

end ScopeM

namespace ClassSet

open ScopeM

variable {may : Scope.Permit} (set : ClassSet)

theorem checkClassName_gains (pattern name : String) :
    Gains may (set.checkClassName pattern name) := by
  intro scope
  rw [run_checkClassName]
  split
  · exact .refl
  split
  · exact .refl
  unfold checkWeakName
  split
  · exact .refl
  · split
    · rename_i later bound
      obtain ⟨id, -, bound⟩ := Option.bind_eq_some_iff.1 bound
      exact .single (.cls bound)
    · exact .refl

theorem checkType_gains (pattern type : TypeDesc) : Gains may (set.checkType pattern type) := by
  unfold checkType
  split
  · exact .pure _
  · split
    · exact set.checkClassName_gains _ _
    · exact .pure _

theorem typesAgree_gains (pattern type : TypeDesc) : Gains may (set.typesAgree pattern type) :=
  (set.checkType_gains pattern type).bind fun _ => .pure _

theorem checkParams_gains (ps ts : List TypeDesc) (soFar : TypeCheck) (scope : Scope) :
    scope.Gains may (finalScope ((set.checkParams ps ts soFar).run scope)) := by
  induction ps generalizing ts soFar scope with
  | nil => exact .refl
  | cons p ps ih =>
    cases ts with
    | nil => exact .refl
    | cons t ts =>
      rw [run_checkParams_cons]
      split
      · exact (set.checkType_gains p t scope).trans (ih ts _ _)
      · exact set.checkType_gains p t scope

theorem checkMethodTypes_gains (pattern type : MethodDesc) (scope : Scope) :
    scope.Gains may (finalScope ((set.checkMethodTypes pattern type).run scope)) := by
  unfold checkMethodTypes
  split
  · exact .refl
  · rw [EStateM.run_bind]
    have one : scope.Gains may _ :=
      set.checkParams_gains pattern.params type.params .unchanged scope
    cases h : (set.checkParams pattern.params type.params .unchanged).run scope with
    | error e middle => simpa [h] using one
    | ok check middle =>
      rw [h] at one
      exact one.trans (set.checkParams_gains [pattern.result] [type.result] check middle)

theorem methodTypesAgree_gains (pattern type : MethodDesc) :
    Gains may (set.methodTypesAgree pattern type) := by
  intro scope
  have final : scope.Gains may _ := set.checkMethodTypes_gains pattern type scope
  change scope.Gains may (set.methodTypesAgree pattern type scope).2
  unfold methodTypesAgree
  split
  · rename_i h
    rwa [h] at final
  · rename_i h
    rwa [h] at final

theorem matchFirst_gains (pattern : String) (names : List String) :
    Gains may (set.matchFirst pattern names) := by
  induction names with
  | nil => exact .pure false
  | cons name names ih =>
    intro scope
    rw [run_matchFirst_cons]
    split
    · exact set.checkClassName_gains pattern name scope
    · exact ih scope

end ClassSet

end JvmPatch
