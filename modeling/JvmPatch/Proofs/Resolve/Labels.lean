import JvmPatch.Proofs.Resolve.Binding

/-! The labels that the names of a script come to stand for while it is looked for. Each of them is
a label of the body that the name belongs to. -/

set_option autoImplicit false

namespace JvmPatch

namespace Scope

variable {scope later : Scope}

/-- The labels that names stand for are allowed in their bodies. -/
def LabelsIn (allowed : MethodId → Label → Prop) (scope : Scope) : Prop :=
  ∀ e ∈ scope.labels.entries, allowed e.1.body e.2

variable {allowed : MethodId → Label → Prop}

theorem LabelsIn.congr (within_ : scope.LabelsIn allowed) (same : later.labels = scope.labels) :
    later.LabelsIn allowed := fun e member => within_ e (same ▸ member)

theorem LabelsIn.of_label? (within_ : scope.LabelsIn allowed) {body : MethodId} {name : String}
    {label : Label} (bound : scope.label? body name = some label) : allowed body label :=
  within_ _ (Table.mem_entries_of_get? bound)

theorem LabelsIn.bindLabel? {body : MethodId} {name : String} {label : Label}
    (within_ : scope.LabelsIn allowed) (isAllowed : allowed body label)
    (bound : scope.bindLabel? body name label = some later) : later.LabelsIn allowed := by
  rcases bindLabel?_cases bound with rfl | ⟨-, -, rfl⟩
  · exact within_
  intro e member
  rcases Table.mem_insertEntry member with rfl | old
  · exact isAllowed
  · exact within_ e old

/-- Labels get names as allowed, and members as they come. -/
def Permit.labelsIn (allowed : MethodId → Label → Prop) : Permit :=
  { Permit.everything with label := allowed }

theorem LabelsIn.binds (within_ : scope.LabelsIn allowed)
    (binds : Binds (.labelsIn allowed) scope later) :
    later.LabelsIn allowed := by
  cases binds with
  | cls bound => exact within_.congr (labels_of_bindClass? bound)
  | field _ bound => exact within_.congr (frame_bindField? bound).1
  | method _ bound => exact within_.congr (frame_bindMethod? bound).1
  | label permitted bound => exact within_.bindLabel? permitted bound

theorem LabelsIn.steps (within_ : scope.LabelsIn allowed)
    (steps : Steps (.labelsIn allowed) scope later) :
    later.LabelsIn allowed := by
  induction steps with
  | refl => exact within_
  | tail _ step ih =>
    cases step with
    | bind binds => exact ih.binds binds
    | record => exact ih
    | clear body =>
      exact fun e member => ih e (List.mem_of_mem_filter member)

/-- The labels that names stand for occur in their bodies. -/
def LabelsOf (set : ClassSet) (scope : Scope) : Prop :=
  scope.LabelsIn fun body l => ∃ code, (set.methodAt body).code = some code ∧ l ∈ code.labels

end Scope

/-- The labels in the scope of an accepted assignment are labels of the bodies that were looked
into. -/
theorem ClassSet.labelsOf_of_accepts {set : ClassSet} {script : Script} {a : Assignment}
    {final : Scope} (accepted : set.Accepts script {} a final) : final.LabelsOf set := by
  obtain ⟨claimed, bound, claims, checks⟩ := accepted
  have allows : set.Allows (.labelsIn fun body l =>
      ∃ code, (set.methodAt body).code = some code ∧ l ∈ code.labels) script a := by
    refine ⟨fun _ _ _ _ _ _ _ _ _ _ _ => trivial, fun _ _ _ => trivial,
      fun t _ type body code _ isCode =>
        ⟨fun region member l inside => ?_, fun _ _ _ insn member => ?_⟩⟩
    · exact ⟨code, isCode, Code.mem_labels_of_region member inside⟩
    · exact ⟨fun l inside => ⟨code, isCode, Code.mem_labels_of_insn member inside⟩,
        fun _ _ _ _ => trivial, fun _ _ _ _ => trivial⟩
  have nothing : Scope.LabelsOf set {} := fun _ member => nomatch member
  exact nothing.steps
    ((set.verify_steps allows).ok ((set.claimAll_steps allows).ok .refl claims) checks)

end JvmPatch
