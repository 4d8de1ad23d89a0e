import JvmPatch.Proofs.Apply.Changes
import JvmPatch.Proofs.Resolve.Verified

/-! Carrying out the blocks of a script up to the method bodies: no body changes, no name stops
standing for what it stands for, and what remains to be done are the bodies of the assigned methods
in the order of the script, and bodies of new methods. -/

set_option autoImplicit false

namespace JvmPatch

namespace ApplyM

/-- Carries out the class blocks of a script, apart from the method bodies. -/
def declare (script : Script) (assignment : Assignment) :
    ApplyM (List (ClassChoice × List PendingBody)) := do
  let blocks ← addClasses (script.classes.zip assignment)
  blocks.mapM fun e => applyClass e.1 e.2

theorem applyAll_eq (script : Script) (assignment : Assignment) :
    applyAll script assignment = (do
      let applied ← declare script assignment
      (applied.flatMap Prod.snd).forM applyBody
      pure (applied.map Prod.fst)) := by
  simp only [applyAll, declare, bind_assoc]

theorem run_assigned_ok {α : Type} {element : String} {x : Option α} {y : α}
    {s t : ApplyState}
    (h : (assigned element x).run s = .ok y t) : x = some y ∧ t = s := by
  cases x with
  | none => cases h
  | some x =>
    cases h
    exact ⟨rfl, rfl⟩

theorem mapped_ok {α : Type} {line : Nat} {f : ApplyState → Except UnboundName α} {x : α}
    {s t : ApplyState} (h : (mapped line f).run s = .ok x t) : f s = .ok x ∧ t = s := by
  obtain ⟨start, u, got, h⟩ := run_bind_ok h
  cases got
  split at h
  · cases h
    exact ⟨‹_›, rfl⟩
  · cases h

theorem preserves_mapped {α : Type} (P : ApplyState → Prop) (line : Nat)
    (f : ApplyState → Except UnboundName α) :
    Preserves P (mapped line f) := by
  refine .ofGet fun s holds => ?_
  cases f s with
  | ok x => exact holds
  | error e => exact holds

theorem preserves_assigned {α : Type} (P : ApplyState → Prop) (element : String) (x : Option α) :
    Preserves P (assigned element x) := by
  cases x with
  | none => exact .throw _ _
  | some x => exact .pure _ _

end ApplyM

namespace ChangesAt

open ApplyM

variable {may : ClassSet.Permit} {s : ApplyState}

protected theorem assigned {α : Type} (may : ClassSet.Permit) (s : ApplyState) (element : String)
    (x : Option α) : ChangesAt may s (assigned element x) := by
  cases x with
  | none => exact .throw may s rfl
  | some x => exact .pure may s x

/-- A field line may remove a field of a class that may be edited. -/
protected theorem applyField {id : ClassId} {choice : Option FieldId} (permitted : may.cls id)
    (block : ClassBlock) (l : FieldLine)
    (own : ∀ f, choice = some f → may.cls (s.classes.fieldAt f).declaredBy) :
    ChangesAt may s (applyField block id l choice) := by
  unfold applyField
  split
  · exact .pure may s _
  · refine (ChangesAt.assigned may s _ _).bind fun field t found => ?_
    obtain ⟨chosen, rfl⟩ := run_assigned_ok found
    refine ChangesAt.bind (m := modifyClasses _)
      (.ofClasses (.removeField _ (own field chosen))) fun _ u _ => ?_
    exact (Changes.touch may _).bind (fun _ => .pure may _) u
  · exact (Changes.addField permitted _).bind (fun _ => .pure may _) s

/-- The flags of a method may be rewritten if they may be edited or stay as they are. -/
protected theorem rewriteAccess {id : MethodId} {block : MethodBlock}
    (allowed : may.access id ∨
      block.accessOver (s.classes.methodAt id).access = (s.classes.methodAt id).access) :
    ChangesAt may s (rewriteAccess id block) := by
  refine .get ?_
  dsimp only
  split
  · rename_i different
    have permitted := allowed.resolve_right different
    refine ChangesAt.bind (m := modifyClasses _) (.ofClasses
      (.modifyMethod ?_ (.inr permitted) (.inl ?_) _)) fun _ t _ => Changes.touch may _ t
    · exact fun _ => ⟨rfl, rfl, rfl, rfl⟩
    · exact fun _ => rfl
  · exact .pure may s _

/-- A method block may add a method to a class that may be edited, remove a method of such a class,
and rewrite flags that may be edited. -/
protected theorem applyMethod {id : ClassId} {choice : Option MethodId} {block : MethodBlock}
    (permitted : may.cls id) (owner : ClassBlock)
    (removal : block.mode = .remove → ∀ handle method, choice = some handle →
      (s.classes.bodyOf id handle).getD handle = method →
      ∀ cls, method ∈ (s.classes.classAt cls).methods → may.cls cls ∧
        may.drop cls (s.classes.methodAt method).name (s.classes.methodAt method).desc)
    (access : block.mode = .keep → ∀ handle, choice = some handle → may.access handle ∨
      block.accessOver (s.classes.methodAt handle).access =
        (s.classes.methodAt handle).access) :
    ChangesAt may s (applyMethod owner id block choice) := by
  unfold applyMethod
  cases mode : block.mode with
  | add => exact (Changes.addMethod permitted block).bind (fun _ => .pure may _) s
  | remove =>
    refine (ChangesAt.assigned may s _ _).bind fun handle t found => ?_
    obtain ⟨chosen, rfl⟩ := run_assigned_ok found
    refine .get ?_
    dsimp only
    refine ChangesAt.bind (m := modifyClasses _)
      (.ofClasses (.removeMethod _ (removal mode handle _ chosen rfl))) fun _ u _ => ?_
    exact (Changes.touch may _).bind (fun _ => .pure may _) u
  | keep =>
    refine (ChangesAt.assigned may s _ _).bind fun handle t found => ?_
    obtain ⟨chosen, rfl⟩ := run_assigned_ok found
    exact (ChangesAt.rewriteAccess (access mode handle chosen)).bind fun _ u _ => .pure may u _

end ChangesAt

/-- Everything may change but the bodies of methods. -/
def ClassSet.Permit.declarations : ClassSet.Permit :=
  ⟨fun _ => True, fun _ => True, fun _ => False, fun _ _ _ => True⟩

namespace Changes

open ApplyM ClassSet.Permit

protected theorem applyField (block : ClassBlock) (id : ClassId) (l : FieldLine)
    (choice : Option FieldId) : Changes declarations (applyField block id l choice) :=
  fun _ => .applyField trivial block l fun _ _ => trivial

protected theorem applyMethod (owner : ClassBlock) (id : ClassId) (block : MethodBlock)
    (choice : Option MethodId) : Changes declarations (applyMethod owner id block choice) :=
  fun _ => .applyMethod trivial owner (fun _ _ _ _ _ _ _ => ⟨trivial, trivial⟩)
    fun _ _ _ => .inl trivial

protected theorem applyClass (block : ClassBlock) (choice : ClassChoice) :
    Changes declarations (applyClass block choice) := by
  refine (Changes.assigned _ _ _).bind fun id => ?_
  split
  · exact (Changes.removeClass trivial).bind fun _ => .pure _ _
  · refine (Changes.forM fun l _ => .applySuper trivial _ l).bind fun _ => ?_
    refine (Changes.forM fun l _ => .applyInterface trivial _ l).bind fun _ => ?_
    refine (Changes.mapM fun e _ => .applyField block id e.1 e.2).bind fun _ => ?_
    exact (Changes.mapM fun e _ => .applyMethod block id e.1 e.2).bind fun _ => .pure _ _

protected theorem declare (script : Script) (a : Assignment) :
    Changes declarations (declare script a) :=
  (Changes.addClasses _ _).bind fun _ => .mapM fun e _ => .applyClass e.1 e.2

end Changes

def PendingBody.target? : PendingBody → Option MethodTarget
  | .added .. => none
  | .matched cls handle block => some ⟨cls, handle, block, .keep⟩

/-- The methods whose bodies have to be built are new. -/
def FreshBodies (set : ClassSet) (pending : List PendingBody) : Prop :=
  ∀ id block, .added id block ∈ pending → ¬set.HasMethod id

namespace ApplyM

variable {s t : ApplyState}

/-- What remains to be done after a method block. -/
theorem applyMethod_pending {owner : ClassBlock} {id : ClassId} {block : MethodBlock}
    {choice result : Option MethodId} {pending : List PendingBody}
    (h : (applyMethod owner id block choice).run s = .ok (result, pending) t) :
    pending.filterMap PendingBody.target? =
        (block.target id .keep choice).filter MethodTarget.edited ∧
      FreshBodies s.classes pending := by
  unfold applyMethod at h
  unfold MethodBlock.target
  cases mode : block.mode with
  | add =>
    simp only [mode] at h
    obtain ⟨method, u, added, done⟩ := run_bind_ok h
    cases done
    refine ⟨by simp [PendingBody.target?], fun id' block' member => ?_⟩
    have same := (PendingBody.added.inj (List.mem_singleton.1 member)).1
    subst same
    obtain ⟨type, u, mapped, added⟩ := run_bind_ok added
    obtain ⟨start, v, got, added⟩ := run_bind_ok added
    cases got
    have unchanged := (Changes.mapped (.declarations) block.line
      (fun s => s.scope.mapMethod s.classes block.type) s).ok mapped
    have numbered : id' = u.classes.nextMethod := by
      dsimp only at added
      obtain ⟨_, v, -, added⟩ := run_bind_ok added
      split at added
      · obtain ⟨_, _, -, added⟩ := run_bind_ok added
        obtain ⟨_, _, -, added⟩ := run_bind_ok added
        cases added
        rfl
      · obtain ⟨_, _, -, added⟩ := run_bind_ok added
        cases added
        rfl
    intro known
    have := unchanged.classes.hasMethod _ known
    rw [numbered] at this
    exact Nat.lt_irrefl _ this
  | remove =>
    simp only [mode] at h
    obtain ⟨handle, u, found, rest⟩ := run_bind_ok h
    obtain ⟨rfl, rfl⟩ := run_assigned_ok found
    obtain ⟨_, _, -, rest⟩ := run_bind_ok rest
    obtain ⟨_, _, -, rest⟩ := run_bind_ok rest
    obtain ⟨_, _, -, rest⟩ := run_bind_ok rest
    cases rest
    exact ⟨by simp [MethodTarget.edited, mode], fun _ _ member => nomatch member⟩
  | keep =>
    simp only [mode] at h
    obtain ⟨handle, u, found, rest⟩ := run_bind_ok h
    obtain ⟨rfl, rfl⟩ := run_assigned_ok found
    obtain ⟨_, _, -, rest⟩ := run_bind_ok rest
    cases rest
    exact ⟨by simp [PendingBody.target?, MethodTarget.edited, mode],
      fun _ _ member => by simp at member⟩

/-- Every step of a loop is taken in a state that the steps before it have led to. -/
theorem run_mapM_ok {α β : Type} {may : ClassSet.Permit} {f : α → ApplyM β} {xs : List α}
    {ys : List β} (changes : ∀ x ∈ xs, Changes may (f x)) (h : (xs.mapM f).run s = .ok ys t) :
    List.Forall₂ (fun x y => ∃ u v, Changed may s u ∧ (f x).run u = .ok y v) xs ys := by
  induction xs generalizing s ys with
  | nil =>
    cases h
    exact .nil
  | cons x xs ih =>
    rw [List.mapM_cons] at h
    obtain ⟨y, u, one, h⟩ := run_bind_ok h
    obtain ⟨rest, v, more, done⟩ := run_bind_ok h
    cases done
    have first := (changes x List.mem_cons_self s).ok one
    refine .cons ⟨s, u, .refl may s, one⟩ ?_
    refine (ih (fun z member => changes z (.tail _ member)) more).imp ?_
    rintro z w ⟨u', v', reached, step⟩
    exact ⟨u', v', first.trans reached, step⟩

theorem filterMap_of_forall₂ {α β γ δ : Type} {f : β → List γ} {g : γ → Option δ}
    {targets : α → List δ} {xs : List α} {ys : List β}
    (same : List.Forall₂ (fun x y => (f y).filterMap g = targets x) xs ys) :
    (ys.flatMap f).filterMap g = xs.flatMap targets := by
  induction same with
  | nil => rfl
  | cons one _ ih => rw [List.flatMap_cons, List.filterMap_append, one, ih, List.flatMap_cons]

theorem exists_of_mem_right {α β : Type} {R : α → β → Prop} {xs : List α} {ys : List β}
    (related : List.Forall₂ R xs ys) {y : β} (member : y ∈ ys) : ∃ x, R x y :=
  let ⟨x, _, one⟩ := exists_mem_of_mem_right related member
  ⟨x, one⟩

theorem forall₂_comp {α β γ : Type} {R : α → β → Prop} {S : β → γ → Prop} {xs : List α}
    {ys : List β} {zs : List γ} (first : List.Forall₂ R xs ys) (second : List.Forall₂ S ys zs) :
    List.Forall₂ (fun x z => ∃ y, R x y ∧ S y z) xs zs := by
  induction first generalizing zs with
  | nil =>
    cases second
    exact .nil
  | cons one _ ih =>
    cases second with
    | cons two rest => exact .cons ⟨_, one, two⟩ (ih rest)

/-- The methods that are assigned to the method blocks of a class block that is carried out in a
class. -/
def methodTargets (id : ClassId) (block : ClassBlock) (choice : ClassChoice) : List MethodTarget :=
  (block.methods.zip choice.methods).flatMap fun e => e.1.target id .keep e.2

/-- The methods that are assigned to the blocks of a class block, unless it removes the class. -/
def carriedTargets (e : ClassBlock × ClassChoice) : List MethodTarget :=
  match e.2.cls with
  | none => []
  | some id => if e.1.mode = .remove then [] else methodTargets id e.1 e.2

/-- What remains to be done after a class block. -/
theorem applyClass_pending {block : ClassBlock} {choice result : ClassChoice}
    {pending : List PendingBody}
    (h : (applyClass block choice).run s = .ok (result, pending) t) :
    pending.filterMap PendingBody.target? =
        (carriedTargets (block, choice)).filter MethodTarget.edited ∧
      FreshBodies s.classes pending := by
  obtain ⟨id, u, found, body⟩ := run_bind_ok h
  obtain ⟨chosen, rfl⟩ := run_assigned_ok found
  simp only [carriedTargets, chosen]
  split at body
  · obtain ⟨_, _, -, done⟩ := run_bind_ok body
    cases done
    rw [if_pos ‹_›]
    exact ⟨rfl, fun _ _ member => nomatch member⟩
  · rw [if_neg ‹_›]
    obtain ⟨_, u₁, supers, body⟩ := run_bind_ok body
    obtain ⟨_, u₂, interfaces, body⟩ := run_bind_ok body
    obtain ⟨fields, u₃, fieldLines, body⟩ := run_bind_ok body
    obtain ⟨methods, u₄, methodBlocks, done⟩ := run_bind_ok body
    cases done
    have changed : Changed .declarations u u₃ :=
      ((Changes.forM fun l _ => .applySuper trivial _ l) u |>.ok supers).trans
        (((Changes.forM fun l _ => .applyInterface trivial _ l) u₁ |>.ok interfaces).trans
          ((Changes.mapM fun e _ => .applyField block id e.1 e.2) u₂ |>.ok fieldLines))
    have steps := run_mapM_ok (fun e _ => .applyMethod block id e.1 e.2) methodBlocks
    constructor
    · rw [methodTargets, List.filter_flatMap]
      refine filterMap_of_forall₂ (steps.imp ?_)
      rintro e y ⟨v, w, -, step⟩
      exact (applyMethod_pending step).1
    · intro id' block' member known
      obtain ⟨y, inside, member⟩ := List.mem_flatMap.1 member
      obtain ⟨e, v, w, reached, step⟩ := exists_of_mem_right steps inside
      exact (applyMethod_pending step).2 id' block' member
        (reached.classes.hasMethod _ (changed.classes.hasMethod _ known))

/-- What adding the classes of a script does to a block: one that adds a class gets a new class, and
the others are as they were. -/
structure Prepared (set : ClassSet) (e e' : ClassBlock × ClassChoice) : Prop where
  block : e'.1 = e.1
  fields : e'.2.fields = e.2.fields
  methods : e'.2.methods = e.2.methods
  kept : e.1.mode ≠ .add → e'.2 = e.2
  added : e.1.mode = .add → ∃ id, e'.2.cls = some id ∧ ¬set.HasClass id

/-- The classes with an added one, and the names afterwards. -/
theorem addClass_result {block : ClassBlock} {id : ClassId}
    (h : (addClass block).run s = .ok id t) :
    id = s.classes.nextClass ∧
      t.classes = s.classes.addClass
        (.fresh block.ident.name (some objectClass) block.kind.access) ∧
      (t.scope = s.scope ∨ s.scope.bindClass? block.ident.text id = some t.scope) := by
  obtain ⟨start, u, got, h⟩ := run_bind_ok h
  cases got
  dsimp only at h
  split at h
  · cases h
  · obtain ⟨_, v, added, h⟩ := run_bind_ok h
    cases added
    split at h
    · split at h
      · rename_i scope bound
        obtain ⟨_, w, kept, h⟩ := run_bind_ok h
        cases kept
        obtain ⟨_, x, counted, h⟩ := run_bind_ok h
        cases counted
        cases h
        exact ⟨rfl, rfl, .inr bound⟩
      · obtain ⟨_, _, failed, h⟩ := run_bind_ok h
        cases failed
    · obtain ⟨_, w, counted, h⟩ := run_bind_ok h
      cases counted
      cases h
      exact ⟨rfl, rfl, .inl rfl⟩

theorem addClasses_ok {blocks result : List (ClassBlock × ClassChoice)}
    (h : (addClasses blocks).run s = .ok result t) :
    List.Forall₂ (Prepared s.classes) blocks result := by
  induction blocks generalizing s result with
  | nil =>
    cases h
    exact .nil
  | cons e rest ih =>
    obtain ⟨block, choice⟩ := e
    unfold addClasses at h
    dsimp only at h
    split at h
    · obtain ⟨id, u, added, h⟩ := run_bind_ok h
      obtain ⟨choice', v, chosen, h⟩ := run_bind_ok h
      cases chosen
      obtain ⟨others, w, more, done⟩ := run_bind_ok h
      cases done
      have grown := ((Changes.addClass .declarations block) s).ok added
      refine .cons ⟨rfl, rfl, rfl, fun kept => absurd ‹_› kept, fun _ => ⟨id, rfl, ?_⟩⟩
        ((ih more).imp fun e e' prepared => ?_)
      · rw [(addClass_result added).1]
        exact Nat.lt_irrefl _
      · exact { prepared with
          added := fun mode =>
            (prepared.added mode).imp fun id new => ⟨new.1, fun old =>
              new.2 (grown.classes.hasClass id old)⟩ }
    · obtain ⟨choice', v, chosen, h⟩ := run_bind_ok h
      cases chosen
      obtain ⟨others, w, more, done⟩ := run_bind_ok h
      cases done
      exact .cons ⟨rfl, rfl, rfl, fun _ => rfl, fun mode => absurd mode ‹_›⟩ (ih more)

theorem methodTargets_of_unassigned {id : ClassId} {block : ClassBlock} {choice : ClassChoice}
    (unassigned : ∀ m ∈ choice.methods, m = none) : methodTargets id block choice = [] := by
  rw [methodTargets, List.flatMap_eq_nil_iff]
  intro e member
  rw [unassigned e.2 (List.of_mem_zip member).2, MethodBlock.target]
  split <;> rfl

theorem unassigned_of_fills {α : Type} {mode : Mode} {x : Option α} (fills : Fills mode none x) :
    x = none := by
  cases mode <;> exact fills

/-- Nothing is assigned to the lines of a block that adds a class. -/
theorem unassigned_of_added {set : ClassSet} {block : ClassBlock} {choice : ClassChoice}
    (full : set.FullChoice block choice) (added : block.mode = .add) :
    choice.cls = none ∧ (∀ f ∈ choice.fields, f = none) ∧ ∀ m ∈ choice.methods, m = none := by
  have nothing : choice.cls = none := by
    have fills := full.cls
    rw [added] at fills
    exact fills
  refine ⟨nothing, fun f member => ?_, fun m member => ?_⟩
  · obtain ⟨l, fills⟩ := exists_of_mem_right full.fields member
    rw [nothing] at fills
    exact unassigned_of_fills fills
  · obtain ⟨b, fills⟩ := exists_of_mem_right full.methods member
    rw [nothing] at fills
    exact unassigned_of_fills fills

theorem carriedTargets_eq {set : ClassSet} {known : ClassSet} {e e' : ClassBlock × ClassChoice}
    (full : set.FullChoice e.1 e.2) (prepared : Prepared known e e') :
    carriedTargets e' = (e.1.targets e.2).filter fun t => t.mode == .keep := by
  obtain ⟨block, choice⟩ := e
  obtain ⟨block', choice'⟩ := e'
  obtain ⟨rfl, -, methods, kept, added⟩ := prepared
  dsimp only at full methods kept added ⊢
  cases mode : block'.mode with
  | add =>
    obtain ⟨id, isNew, -⟩ := added mode
    simp only [carriedTargets, ClassBlock.targets, isNew, mode, reduceCtorEq, if_false, if_true,
      List.filter_nil]
    exact methodTargets_of_unassigned (methods ▸ (unassigned_of_added full mode).2.2)
  | remove =>
    rw [kept (by simp [mode])]
    unfold carriedTargets ClassBlock.targets
    dsimp only
    cases choice.cls with
    | none => simp [mode]
    | some id =>
      simp only [mode, reduceCtorEq, if_false, if_true, List.filter_flatMap]
      refine (List.flatMap_eq_nil_iff.2 fun e _ => ?_).symm
      unfold MethodBlock.target
      split
      · rfl
      · split <;> rfl
  | keep =>
    rw [kept (by simp [mode])]
    unfold carriedTargets ClassBlock.targets methodTargets
    dsimp only
    cases choice.cls with
    | none => simp [mode]
    | some id =>
      simp only [mode, reduceCtorEq, if_false, List.filter_flatMap]
      refine congrArg (fun f => List.flatMap f _) (funext fun e => ?_)
      unfold MethodBlock.target
      split
      · rfl
      · split <;> rfl

/-- The targets of the class blocks that are carried out. -/
theorem carriedTargets_of_addClasses {set : ClassSet} {script : Script} {a : Assignment}
    {blocks : List (ClassBlock × ClassChoice)} (full : set.FullAssignment script a)
    (added : (addClasses (script.classes.zip a)).run s = .ok blocks t) :
    blocks.flatMap carriedTargets = (script.targets a).filter fun t => t.mode == .keep := by
  rw [Script.targets, List.filter_flatMap]
  have choices : ∀ e ∈ script.classes.zip a, set.FullChoice e.1 e.2 :=
    fun e member => (List.forall₂_iff_zip.1 full).2 member
  have both := (List.forall₂_and_left _ _).2 ⟨choices, addClasses_ok added⟩
  clear added
  generalize script.classes.zip a = es at both
  induction both with
  | nil => rfl
  | cons one _ ih =>
    rw [List.flatMap_cons, List.flatMap_cons, carriedTargets_eq one.1 one.2, ih]

/-- The bodies that remain to be changed are those of the edited targets, in order. -/
theorem declare_pending {script : Script} {a : Assignment}
    {applied : List (ClassChoice × List PendingBody)} {set : ClassSet}
    (full : set.FullAssignment script a)
    (h : (declare script a).run s = .ok applied t) :
    (applied.flatMap Prod.snd).filterMap PendingBody.target? =
        (script.targets a).filter MethodTarget.edited ∧
      FreshBodies s.classes (applied.flatMap Prod.snd) := by
  obtain ⟨blocks, u, added, steps⟩ := run_bind_ok h
  have changed := (Changes.addClasses .declarations _ s).ok added
  have results := run_mapM_ok (fun e _ => .applyClass e.1 e.2) steps
  constructor
  · have onlyEdited : (script.targets a).filter MethodTarget.edited =
        (blocks.flatMap carriedTargets).filter MethodTarget.edited := by
      rw [carriedTargets_of_addClasses full added, List.filter_filter]
      refine congrArg (fun p => List.filter p _) (funext fun t => ?_)
      unfold MethodTarget.edited
      cases t.mode == .keep <;> simp
    rw [onlyEdited, List.filter_flatMap]
    refine filterMap_of_forall₂ (results.imp ?_)
    rintro e y ⟨v, w, -, step⟩
    exact (applyClass_pending step).1
  · intro id block member known
    obtain ⟨y, inside, member⟩ := List.mem_flatMap.1 member
    obtain ⟨e, v, w, reached, step⟩ := exists_of_mem_right results inside
    exact (applyClass_pending step).2 id block member
      (reached.classes.hasMethod _ (changed.classes.hasMethod _ known))

end ApplyM

end JvmPatch
