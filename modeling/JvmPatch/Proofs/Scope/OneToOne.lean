import JvmPatch.Proofs.Scope.Binding

/-! Names and what they stand for are one to one: a class has at most one weak name, and so has a
label of a body. Binding a name keeps this, because it looks for another name of the same thing
first. -/

set_option autoImplicit false

namespace JvmPatch

namespace Scope

/-- No two weak names stand for the same class, and no two names of a body for the same label. -/
structure OneToOne (scope : Scope) : Prop where
  classes : ∀ key key' id, scope.class? key = some id → scope.class? key' = some id → key = key'
  labels : ∀ body name name' l, scope.label? body name = some l → scope.label? body name' = some l →
    name = name'

theorem oneToOne_empty : OneToOne {} :=
  ⟨fun _ _ _ bound => (nomatch bound), fun _ _ _ _ bound => (nomatch bound)⟩

variable {may : Permit} {scope later : Scope}

namespace OneToOne

theorem congr (unique : scope.OneToOne) (classes : later.classes = scope.classes)
    (labels : later.labels = scope.labels) : later.OneToOne := by
  obtain ⟨one, two⟩ := unique
  constructor
  · simpa only [class?, classes] using one
  · simpa only [label?, labels] using two

theorem bindClass? (unique : scope.OneToOne) {key : String} {id : ClassId}
    (bound : scope.bindClass? key id = some later) : later.OneToOne := by
  rcases bindClass?_cases bound with rfl | ⟨-, unnamed, rfl⟩
  · exact unique
  refine ⟨fun k k' x one two => ?_, unique.labels⟩
  unfold class? at one two
  dsimp only at one two
  rw [Table.get?_insert] at one two
  split at one <;> split at two
  · rw [‹k = key›, ‹k' = key›]
  · obtain rfl := Option.some.inj one
    exact absurd two (unnamed k')
  · obtain rfl := Option.some.inj two
    exact absurd one (unnamed k)
  · exact unique.classes k k' x one two

theorem bindLabel? (unique : scope.OneToOne) {body : MethodId} {name : String} {l : Label}
    (bound : scope.bindLabel? body name l = some later) : later.OneToOne := by
  rcases bindLabel?_cases bound with rfl | ⟨-, unnamed, rfl⟩
  · exact unique
  refine ⟨unique.classes, fun b n n' x one two => ?_⟩
  unfold label? at one two
  dsimp only at one two
  rw [Table.get?_insert] at one two
  split at one <;> split at two
  · rename_i first second
    exact (LabelKey.mk.inj first).2.trans (LabelKey.mk.inj second).2.symm
  · rename_i first _
    obtain rfl := Option.some.inj one
    obtain rfl := (LabelKey.mk.inj first).1
    exact absurd two (unnamed n')
  · rename_i second
    obtain rfl := Option.some.inj two
    obtain rfl := (LabelKey.mk.inj second).1
    exact absurd one (unnamed n)
  · exact unique.labels b n n' x one two

/-- Whatever name is bound, names stay one to one. -/
theorem binds (unique : scope.OneToOne) (binds : Binds may scope later) : later.OneToOne := by
  cases binds with
  | cls bound => exact unique.bindClass? bound
  | field _ bound =>
    rcases bindField?_cases bound with rfl | ⟨-, -, rfl⟩ <;> exact unique.congr rfl rfl
  | method _ bound =>
    rcases bindMethod?_cases bound with rfl | ⟨-, -, rfl⟩ <;> exact unique.congr rfl rfl
  | label _ bound => exact unique.bindLabel? bound

theorem step (unique : scope.OneToOne) (step : Step may scope later) : later.OneToOne := by
  cases step with
  | bind binds => exact unique.binds binds
  | record body places => exact unique.congr rfl rfl
  | clear body =>
    refine ⟨unique.classes, fun b n n' l one two => ?_⟩
    unfold label? clearBody at one two
    rw [Table.get?_filterKeys] at one two
    by_cases other : (b != body) = true
    · rw [if_pos other] at one two
      exact unique.labels b n n' l one two
    · rw [if_neg other] at one
      cases one

/-- Names are one to one in every scope that arises from one in which they are. -/
theorem steps (unique : scope.OneToOne) (steps : Steps may scope later) : later.OneToOne := by
  induction steps with
  | refl => exact unique
  | tail _ step ih => exact ih.step step

theorem gains (unique : scope.OneToOne) (gains : Gains may scope later) : later.OneToOne :=
  unique.steps gains.steps

end OneToOne

end Scope

end JvmPatch
