import JvmPatch.Proofs.Apply.Declarations
import JvmPatch.Proofs.Apply.Editing
import JvmPatch.Proofs.Resolve.Scopes

/-! Bindings through a whole run, from the trial of an assignment to the end of applying the script.
Applying binds further names, and none of those that the checks have bound is bound anew. -/

set_option autoImplicit false

namespace JvmPatch

/-- Applying has only bound further names. -/
abbrev GainsFrom {α : Type} (base : Scope) (m : ApplyM α) : Prop :=
  Preserves (fun s : ApplyState => base.Gains .everything s.scope) m

namespace GainsFrom

open ApplyM

variable {base : Scope}

theorem ofChanges {α : Type} {may : ClassSet.Permit} {m : ApplyM α} (changes : Changes may m) :
    GainsFrom base m := by
  intro s gained
  have changed := changes s
  rw [ChangesAt] at changed
  cases ran : m.run s with
  | ok x t =>
    rw [ran] at changed
    exact gained.trans changed.gains
  | error e t =>
    rw [ran] at changed
    exact gained.trans changed.1.gains

theorem runEdit {m : EditM Unit}
    (grows : ∀ scope : Scope, Preserves (fun e : BodyEdit => scope.GrowsLabels e.names.scope) m)
    (className method : String) (nextLabel : Nat) :
    GainsFrom base (runEdit className method nextLabel m) := by
  refine .ofGet fun s gained => ?_
  have left := preserves_iff.1 (grows s.scope) { names := ⟨s.scope, nextLabel⟩ } (.refl _)
  cases ran : m.run { names := ⟨s.scope, nextLabel⟩ } with
  | ok x edit =>
    rw [leftBy_ok ran] at left
    exact gained.trans left.gains
  | error fault edit =>
    rw [leftBy_error ran] at left
    cases fault <;> exact gained.trans left.gains

theorem checked (line : Nat) (code : Code) : GainsFrom base (checked line code) := by
  unfold ApplyM.checked
  split
  · exact .pure _ _
  · exact .throw _ _

theorem buildBody (id : MethodId) (block : MethodBlock) : GainsFrom base (buildBody id block) := by
  refine .ofGet fun s gained => ?_
  dsimp only
  split
  · exact gained
  rename_i type _
  have added (scope : Scope) : Preserves (fun e : BodyEdit => scope.GrowsLabels e.names.scope)
      (block.insns.forM (BodyContext.addLine ⟨s.classes, id, type⟩)) :=
    .forM fun l _ => BodyContext.addLine_growsLabels _ l scope
  refine preserves_iff.1 (.bind (runEdit added _ _ _) fun edit => (checked _ _).bind
    fun code => ?_) s gained
  exact .modify fun _ gained => gained

theorem changeBody (cls : ClassId) (handle : MethodId) (block : MethodBlock) :
    GainsFrom base (changeBody cls handle block) := by
  refine .ofGet fun s gained => ?_
  dsimp only
  split
  · exact gained
  rename_i body _
  split
  · exact gained
  rename_i type _
  split
  · exact gained
  rename_i code _
  have edited (scope : Scope) :=
    BodyContext.editLines_growsLabels ⟨s.classes, body, type⟩ code.insns
    ((s.scope.methodMatch? body).getD {}) 0 block.insns scope
  refine preserves_iff.1 (.bind (runEdit edited _ _ _) fun edit => ?_) s gained
  split
  · refine (checked _ _).bind fun code => .bind (.modify fun _ gained => gained) fun _ => ?_
    exact .bind (.modify fun _ gained => gained) fun _ => .modify fun _ gained => gained
  · exact .pure _ _

theorem applyBody (p : PendingBody) : GainsFrom base (applyBody p) := by
  cases p with
  | added id block => exact buildBody id block
  | matched cls handle block =>
    unfold ApplyM.applyBody
    dsimp only
    split
    · exact .pure _ _
    · exact changeBody cls handle block

/-- Applying a script binds further names, whether it succeeds or fails. -/
theorem applyAll (script : Script) (a : Assignment) : GainsFrom base (applyAll script a) := by
  rw [applyAll_eq]
  exact (ofChanges (.declare script a)).bind fun applied =>
    (Preserves.forM fun p _ => applyBody p).bind fun _ => .pure _ _

end GainsFrom

/-- In every run from bindings that are one to one, names are one to one: in all scopes that arise
while assignments are tried, and after a script has been applied as far as it goes. What names of
classes and labels stand for in the accepted scope, they stand for after that. -/
theorem ClassSet.resolve_apply_oneToOne (set : ClassSet) (script : Script) {initial : Scope}
    (unique : initial.OneToOne) :
    (∀ a scope, TrialScope set script a initial scope → scope.OneToOne) ∧
      ∀ o r, set.resolve script initial (set.verify script) o = .ok r →
        TrialScope set script r.assignment initial r.scope ∧
          ∀ s, leftBy (ApplyM.applyAll script r.assignment) ⟨set, r.scope, {}⟩ = s →
            s.scope.OneToOne ∧ s.scope.Extends r.scope := by
  have trials (a : Assignment) (scope : Scope) (arises : TrialScope set script a initial scope) :
      scope.OneToOne := unique.steps arises.steps
  refine ⟨trials, fun o r resolved => ?_⟩
  obtain ⟨claimed, bound, claims, checks⟩ := (firstAccepted_of_resolve resolved).accepted
  have accepted : TrialScope set script r.assignment initial r.scope := by
    rw [← leftBy_ok checks]
    exact .checked claims
  refine ⟨accepted, ?_⟩
  rintro s rfl
  have gains := preserves_iff.1 (GainsFrom.applyAll script r.assignment) ⟨set, r.scope, {}⟩ .refl
  exact ⟨(trials _ _ accepted).gains gains, gains.extends_⟩

/-- A class with a method that runs forever. -/
def loopClass : ClassSet :=
  let header : ClassHeader := ⟨"a/A", some objectClass, [], 33, 50, 0, none⟩
  let code : Code := { insns := [.label ⟨0⟩, .jump Opcode.goto ⟨0⟩], nextLabel := 1 }
  (ClassSet.insert? {} ⟨header, [], [⟨"m", "()V", 1, [], some code⟩]⟩ none false).getD {}

/-- Names the class and the label of the loop, and adds a label at the end. -/
def namesLoop : Script :=
  ⟨[⟨.keep, .ordinary, ⟨"a", true⟩, 1, [], [], [],
    [⟨.keep, ⟨"m", false⟩, "()V", ⟨[], .void⟩, false, false, false,
      [⟨.keep, .label, .label (.weak "top"), 3, ".label ~top"⟩,
        ⟨.keep, .jump Opcode.goto, .jump Opcode.goto (.weak "top"), 4, ".goto ~top"⟩,
        ⟨.add, .label, .label (.weak "end"), 5, "+label ~end"⟩], 2⟩]⟩]⟩

/-- What the names of class and label stand for, and where the lines are. -/
def namesLoopFound : Resolution :=
  ⟨{ classes := .insert .empty "~a" ⟨0⟩
     labels := .insert .empty ⟨⟨0⟩, "top"⟩ ⟨0⟩
     bodies := .insert .empty ⟨0⟩ ⟨.insert (.insert .empty 0 0) 1 1, .empty⟩ },
    [⟨some ⟨0⟩, [], [some ⟨0⟩]⟩]⟩

theorem resolve_apply_oneToOne_namesLoop :
    ∃ r s, loopClass.resolve namesLoop {} (loopClass.verify namesLoop) {} = .ok r ∧
      leftBy (ApplyM.applyAll namesLoop r.assignment) ⟨loopClass, r.scope, {}⟩ = s ∧
      r.scope.class? "~a" = some ⟨0⟩ ∧ s.scope.label? ⟨0⟩ "top" = some ⟨0⟩ ∧
      s.scope.label? ⟨0⟩ "end" = some ⟨1⟩ ∧ s.scope.OneToOne ∧ s.scope.Extends r.scope := by
  have resolved : loopClass.resolve namesLoop {} (loopClass.verify namesLoop) {} =
      .ok namesLoopFound := by
    decide +kernel
  obtain ⟨-, applied⟩ := (ClassSet.resolve_apply_oneToOne loopClass namesLoop
    Scope.oneToOne_empty).2 {} _ resolved
  exact ⟨namesLoopFound, _, resolved, rfl, by decide +kernel, by decide +kernel,
    by decide +kernel, applied _ rfl⟩

end JvmPatch
