import JvmPatch.Proofs.Agreement
import JvmPatch.Proofs.Resolve.Binding
import JvmPatch.Proofs.Scope.OneToOne

/-! The scopes that arise while an assignment is tried: while names are bound to what is assigned,
while classes and members are checked, and at each step of looking for lines in a body, also where a
step fails or goes back to earlier bindings. Names are one to one in all of them. -/

set_option autoImplicit false

namespace JvmPatch

theorem ComesTo.preserves {ε σ α β : Type} {f : β → α → EStateM ε σ β} {xs : List α}
    {b c : β} {s t : σ} {x : α} (comes : ComesTo f xs b s x c t) {P : σ → Prop}
    (each : ∀ b, ∀ x ∈ xs, Preserves P (f b x)) (holds : P s) : P t := by
  obtain ⟨before, after, rfl, ran⟩ := comes
  exact (Preserves.foldlM (fun b y member => each b y (List.mem_append_left _ member)) b).ok
    holds ran

/-- The scopes that arise while the lines of a block are looked for in a body. -/
inductive BodyScope (cx : BodyContext) (lines : List InsnLine) (code : Code) (start : Scope) :
    Scope → Prop where
  /-- It is the turn of a line for a region. -/
  | region {before after l scope places} : SoughtLine.forRegions lines = before ++ l :: after →
      findRegions cx code.regions before start .empty = .ok (scope, places) →
      BodyScope cx lines code start scope
  /-- The line has been held against a region, which may not match. -/
  | regionTest {before after l scope places p q h catchType region} :
      SoughtLine.forRegions lines = before ++ l :: after →
      findRegions cx code.regions before start .empty = .ok (scope, places) →
      l.line.pattern = .tryCatch p q h catchType → region ∈ code.regions →
      BodyScope cx lines code start ((cx.matchRegion p q h catchType region).run scope).2
  /-- A line for an instruction is looked for, perhaps with the bindings from before an earlier
  match. -/
  | call {scope places point} :
      findRegions cx code.regions (SoughtLine.forRegions lines) start .empty = .ok (scope, places) →
      (WalkPoint.start lines code scope).Reaches cx point →
        BodyScope cx lines code start point.found.scope
  /-- The line has been held against an instruction, which may not match. -/
  | test {scope places point l insn} :
      findRegions cx code.regions (SoughtLine.forRegions lines) start .empty = .ok (scope, places) →
      (WalkPoint.start lines code scope).Reaches cx point → point.lines.head? = some l →
      point.insns.head? = some insn →
      BodyScope cx lines code start ((cx.matchInsn l.line.pattern insn).run point.found.scope).2

/-- The checks of an assignment have come to a method block. -/
inductive ComesToMethod (set : ClassSet) (script : Script) (a : Assignment) (start : Scope) :
    MethodTarget → Scope → Prop where
  | intro {e n s cls n₁ s₁ n₂ s₂ block handle n₃ scope} :
      ComesTo (fun n e => set.verifyClass e.1 e.2 n) (script.classes.zip a) 0 start e n s →
      e.1.mode ≠ .add → e.2.cls = some cls →
      (VerifyM.pass n e.1.describe (set.checkClass e.1 cls)).run s = .ok n₁ s₁ →
      ((e.1.fields.zip e.2.fields).foldlM (fun n f => ClassSet.verifyElement f.1.mode
        (f.1.describe e.1) .field (set.checkField f.1) f.2 n) n₁).run s₁ = .ok n₂ s₂ →
      ComesTo (fun n m => ClassSet.verifyElement m.1.mode (m.1.describe e.1) .method
        (set.checkMethod m.1 cls) m.2 n) (e.1.methods.zip e.2.methods) n₂ s₂ (block,
        some handle) n₃ scope →
      block.mode ≠ .add → ComesToMethod set script a start ⟨cls, handle, block, e.1.mode⟩ scope

/-- The scopes that arise while an assignment is tried. (The part of a script up to any line is a
script, too, so what is left by binding the names of a script or by checking them includes what is
left by every part of either.) -/
inductive TrialScope (set : ClassSet) (script : Script) (a : Assignment) (initial : Scope) :
    Scope → Prop where
  /-- The names of the class blocks before one have been bound. -/
  | claiming {e n scope} :
      ComesTo (fun n e => set.claimClass e.1 e.2 n) (script.classes.zip a) 0 initial e n scope →
      TrialScope set script a initial scope
  /-- All names have been bound, or one of them could not be. -/
  | claimed : TrialScope set script a initial (leftBy (set.claimAll script a) initial)
  /-- The class blocks before one have been checked. -/
  | checking {claimed bound e n scope} : (set.claimAll script a).run initial = .ok claimed bound →
      ComesTo (fun n e => set.verifyClass e.1 e.2 n) (script.classes.zip a) 0 bound e n scope →
      TrialScope set script a initial scope
  /-- The class of a block has been checked, whether it is as the block says or not. -/
  | checkedClass {claimed bound e n scope cls} :
      (set.claimAll script a).run initial = .ok claimed bound →
      ComesTo (fun n e => set.verifyClass e.1 e.2 n) (script.classes.zip a) 0 bound e n scope →
      TrialScope set script a initial (leftBy (set.checkClass e.1 cls) scope)
  | method {claimed bound t scope} : (set.claimAll script a).run initial = .ok claimed bound →
      ComesToMethod set script a bound t scope → TrialScope set script a initial scope
  /-- The lines of a method block are looked for. -/
  | body {claimed bound t scope type next body code later} :
      (set.claimAll script a).run initial = .ok claimed bound →
        ComesToMethod set script a bound t scope →
      (set.checkMethodHead t.block (set.methodAt t.handle)).run scope = .ok type next →
      t.body? set = some body → (set.methodAt body).code = some code →
      BodyScope ⟨set, body, type⟩ t.block.insns code next later →
        TrialScope set script a initial later
  /-- A method has been checked, and its body is noted or forgotten. -/
  | checkedMethod {claimed bound t scope} :
      (set.claimAll script a).run initial = .ok claimed bound →
      ComesToMethod set script a bound t scope →
      TrialScope set script a initial (leftBy (set.checkMethod t.block t.cls t.handle) scope)
  /-- All checks have been made, or one of them has failed. -/
  | checked {claimed bound} : (set.claimAll script a).run initial = .ok claimed bound →
      TrialScope set script a initial (leftBy (set.verify script a) bound)

variable {set : ClassSet} {script : Script} {a : Assignment} {initial scope : Scope}

/-- Looking for lines in a body binds names as permitted. -/
theorem BodyScope.gains_of_allows {cx : BodyContext} {may : Scope.Permit}
    {lines : List InsnLine} {code : Code} {start : Scope}
    (arises : BodyScope cx lines code start scope) (allows : cx.AllowsBody may lines code) :
    start.Gains may scope := by
  cases arises with
  | region _ found => exact findRegions_gains allows.regions found
  | regionTest _ found _ member =>
    exact (findRegions_gains allows.regions found).trans
      (cx.matchRegion_gains _ _ _ _ (allows.regions _ member) _)
  | call found reaches =>
    exact (findRegions_gains allows.regions found).trans
      (WalkPoint.Reaches.gains reaches (WalkPoint.start_allowed allows _)).1
  | test found reaches isLine isInsn =>
    obtain ⟨gains, allowed⟩ := WalkPoint.Reaches.gains reaches (WalkPoint.start_allowed allows _)
    exact ((findRegions_gains allows.regions found).trans gains).trans
      (cx.matchInsn_gains (allowed _ (List.mem_of_head? isLine) _ (List.mem_of_head? isInsn)) _)

theorem ComesToMethod.mem_targets {start : Scope} {t : MethodTarget}
    (comes : ComesToMethod set script a start t scope) : t ∈ script.targets a := by
  obtain ⟨⟨before, after, classes, -⟩, notAdded, isClass, -, -, ⟨before', after', methods, -⟩,
    methodNotAdded⟩ := comes
  have isElement := classes ▸ List.mem_append_right before List.mem_cons_self
  have isMethod := methods ▸ List.mem_append_right before' List.mem_cons_self
  exact ClassSet.mem_targets isElement notAdded isClass isMethod methodNotAdded rfl

theorem ComesToMethod.steps_of_allows {may : Scope.Permit} {start : Scope} {t : MethodTarget}
    (comes : ComesToMethod set script a start t scope) (allows : set.Allows may script a) :
    start.Steps may scope := by
  obtain ⟨classes, notAdded, isClass, head, fields, methods, -⟩ := comes
  obtain ⟨before, after, isElement, -⟩ := id classes
  have member : _ ∈ script.classes.zip a :=
    isElement ▸ List.mem_append_right before List.mem_cons_self
  have s := classes.preserves (fun n e member => set.verifyClass_steps allows member n) .refl
  have s₁ := ((set.checkClass_steps _ _).pass _ _).ok s head
  have s₂ := (Preserves.foldlM (fun n f _ =>
    ClassSet.verifyElement_steps (fun id _ _ => set.checkField_steps f.1 id) _ _ _) _).ok s₁ fields
  refine methods.preserves (fun n m isMethod => ?_) s₂
  refine ClassSet.verifyElement_steps
    (fun id methodNotAdded assigned => set.checkMethod_steps ?_) _ _ _
  exact allows.body _ (ClassSet.mem_targets member notAdded isClass isMethod
    methodNotAdded assigned)

/-- Every scope that arises in a trial has been reached by steps that bind names as permitted. -/
theorem TrialScope.steps_of_allows {may : Scope.Permit}
    (arises : TrialScope set script a initial scope) (allows : set.Allows may script a) :
    initial.Steps may scope := by
  have claim {claimed : Nat} {bound : Scope}
    (ran : (set.claimAll script a).run initial = .ok claimed bound) :
      initial.Steps may bound := (set.claimAll_steps allows).ok .refl ran
  have comesTo {bound : Scope} {e : ClassBlock × ClassChoice} {n : Nat} {s : Scope}
      (start : initial.Steps may bound)
      (comes : ComesTo (fun n e => set.verifyClass e.1 e.2 n)
        (script.classes.zip a) 0 bound e n s) :
      initial.Steps may s :=
    comes.preserves (fun n e member => set.verifyClass_steps allows member n) start
  cases arises with
  | claiming comes =>
    exact comes.preserves (fun n e member => set.claimClass_steps allows member n) .refl
  | claimed => exact preserves_iff.1 (set.claimAll_steps allows) _ .refl
  | checking ran comes => exact comesTo (claim ran) comes
  | checkedClass ran comes =>
    exact preserves_iff.1 (set.checkClass_steps _ _) _ (comesTo (claim ran) comes)
  | method ran comes => exact (claim ran).trans (comes.steps_of_allows allows)
  | body ran comes head isBody isCode arises =>
    have start := (claim ran).trans (comes.steps_of_allows allows)
    have gains := arises.gains_of_allows (allows.body _ comes.mem_targets _ _ _ isBody isCode)
    exact ((set.checkMethodHead_steps _ _).ok start head).trans gains.steps
  | checkedMethod ran comes =>
    exact preserves_iff.1 (set.checkMethod_steps (allows.body _ comes.mem_targets)) _
      ((claim ran).trans (comes.steps_of_allows allows))
  | checked ran => exact preserves_iff.1 (set.verify_steps allows) _ (claim ran)

/-- Every scope that arises in a trial has been reached by steps of a trial. -/
theorem TrialScope.steps (arises : TrialScope set script a initial scope) :
    initial.Steps .everything scope :=
  arises.steps_of_allows (set.allows_everything script a)

end JvmPatch
