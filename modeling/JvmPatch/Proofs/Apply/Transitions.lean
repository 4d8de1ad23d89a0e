import JvmPatch.Proofs.Apply.Frame
import JvmPatch.Proofs.ClassSet.Intake
import JvmPatch.Proofs.Resolve.Labels

/-! The steps in which applying a script goes on, whether it succeeds or fails: the declarations one
after another, each of which marks the class that it edits, and then the bodies. A step that fails
leaves the classes as they were before it, so a script that cannot be applied has taken the first
steps of its run. -/

set_option autoImplicit false

namespace JvmPatch

namespace ClassSet

def mark (set : ClassSet) (id : ClassId) : ClassSet :=
  set.modifyClass id fun c => { c with modified := true }

/-- The classes after a script has been applied as far as it goes. -/
def afterApply (set : ClassSet) (script : Script) (r : Resolution) : ClassSet :=
  (leftBy (ApplyM.applyAll script r.assignment) ⟨set, r.scope, {}⟩).classes

theorem afterApply_of_ok {set : ClassSet} {script : Script} {r : Resolution} {result : Applied}
    (applied : set.apply script r = .ok result) : set.afterApply script r = result.classes := by
  rw [apply] at applied
  split at applied
  · rename_i a s ran
    obtain rfl := Except.ok.inj applied
    rw [afterApply, leftBy_ok ran]
  · cases applied

abbrev AnyMethod : MethodId → Prop := fun _ => True

/-- What the declarations of a script with these field lines do to the classes in one step. Some
methods may be removed. -/
inductive Declaration (lines : List FieldLine) (drops : MethodId → Prop) (set : ClassSet) :
    ClassSet → Prop where
  | addClass (name : String) (kind : ClassKind) : set.find? name = none →
      Declaration lines drops set (set.addClass (.fresh name (some objectClass) kind.access))
  /-- A class gets other supertypes, or is removed. -/
  | header (id : ClassId) (f : ClassEntry → ClassEntry) :
      (∀ c, (f c).name = c.name ∧ (f c).access = c.access) →
      (∀ c, (f c).methods = c.methods ∧ (f c).fields = c.fields ∧ (f c).view = c.view) →
      (∀ c, (f c).source = c.source ∧ (f c).modified = true) →
      (∀ c, (f c).isExternal = c.isExternal ∧ (f c).hidden = c.hidden) →
      Declaration lines drops set (set.modifyClass id f)
  | addField (id : ClassId) {l : FieldLine} (name desc : String) : l ∈ lines →
      Declaration lines drops set ((set.addField id ⟨name, desc, l.access, l.value⟩ false).mark id)
  | removeField (id : FieldId) :
      Declaration lines drops set ((set.removeField id).mark (set.fieldAt id).declaredBy)
  | addMethod (id : ClassId) (block : MethodBlock) (name desc : String) : set.HasClass id →
      Declaration lines drops set
        ((set.addMethod id ⟨name, desc, block.access, [], some {}⟩ false).mark id)
  | removeMethod (id : MethodId) : drops id →
      Declaration lines drops set ((set.removeMethod id).mark (set.methodAt id).declaredBy)
  | rewriteAccess (id : MethodId) (block : MethodBlock) :
      Declaration lines drops set
        ((set.modifyMethod id fun m =>
          { m with access := block.accessOver (set.methodAt id).access }).mark
            (set.methodAt id).declaredBy)

namespace Declaration

variable {lines : List FieldLine} {drops : MethodId → Prop} {set later : ClassSet}

theorem evolves_mark (may : Permit) (set : ClassSet) (id : ClassId) :
    Evolves may set (set.mark id) := by
  refine .modifyClass_of_sameLists may set id ?_ ?_
  · exact fun c => ⟨rfl, rfl, rfl⟩
  · exact fun c m member => .inl member

theorem evolves (step : Declaration lines drops set later) : Evolves .everything set later := by
  cases step with
  | addClass name kind => exact .addClass _ set rfl rfl rfl
  | header id f same lists => exact .modifyHeader trivial set (fun c => (same c).1) lists
  | addField id name desc =>
    exact (Evolves.addField trivial set _ false).trans (evolves_mark _ _ id)
  | removeField id => exact (Evolves.removeField set trivial).trans (evolves_mark _ _ _)
  | addMethod id block name desc =>
    exact (Evolves.addMethod trivial set _ false).trans (evolves_mark _ _ id)
  | removeMethod id _ =>
    exact (Evolves.removeMethod set fun _ _ => ⟨trivial, trivial⟩).trans (evolves_mark _ _ _)
  | rewriteAccess id block =>
    refine (Evolves.modifyMethod ?_ (.inr trivial) (.inl ?_) set).trans (evolves_mark _ _ _)
    · exact fun m => ⟨rfl, rfl, rfl, rfl⟩
    · exact fun m => rfl

abbrev Steps (lines : List FieldLine) (drops : MethodId → Prop) : ClassSet → ClassSet → Prop :=
  Relation.ReflTransGen (Declaration lines drops)

theorem Steps.evolves (steps : Steps lines drops set later) : Evolves .everything set later := by
  induction steps with
  | refl => exact .refl _ set
  | tail _ step ih => exact ih.trans step.evolves

/-- Something that does not depend on hiding holds of all methods if it holds of those that are
added and goes over to those that get other flags. -/
theorem allMethods {Q : MethodEntry → Prop} (all : AllMethods Q set)
    (step : Declaration lines drops set later)
    (access : ∀ (m : MethodEntry) (block : MethodBlock), Q m →
      Q { m with access := block.accessOver m.access })
    (hidden : ∀ m : MethodEntry, Q m → Q { m with hidden := true })
    (new : ∀ id (block : MethodBlock) name desc, set.HasClass id →
      Q { (⟨name, desc, block.access, [], some {}⟩ : MethodDecl) with
            declaredBy := id, owners := [id], hidden := false }) : AllMethods Q later := by
  cases step with
  | addClass name kind => exact all.ofMethods rfl
  | header id f => exact all.ofMethods rfl
  | addField id name desc => exact all.ofMethods rfl
  | removeField id => exact all.ofMethods rfl
  | addMethod id block name desc known =>
    exact (all.addMethod (new id block name desc known)).ofMethods rfl
  | removeMethod id _ => exact (all.modifyMethod hidden id).ofMethods rfl
  | rewriteAccess id block =>
    have rewritten : AllMethods Q (set.modifyMethod id fun m =>
        { m with access := block.accessOver (set.methodAt id).access }) := by
      intro m has
      have known := (set.hasMethod_modifyMethod id m _).1 has
      by_cases same : m = id
      · subst same
        rw [set.methodAt_modifyMethod_self _ known]
        exact access _ block (all m known)
      · rw [set.methodAt_modifyMethod_of_ne _ same]
        exact all m known
    exact rewritten.ofMethods rfl

end Declaration

theorem MethodsDeclared.declarations {lines : List FieldLine} {drops : MethodId → Prop}
    {set later : ClassSet} (declared : set.MethodsDeclared)
    (steps : Declaration.Steps lines drops set later) : later.MethodsDeclared := by
  induction steps with
  | refl => exact declared
  | @tail s t _ step ih =>
    have grown := step.evolves.hasClass
    exact Declaration.allMethods (ih.later grown) step (fun _ _ h => h) (fun _ h => h)
      fun id _ _ _ known => grown id known

end ClassSet

def Script.fieldLines (script : Script) : List FieldLine := script.classes.flatMap ClassBlock.fields

/-- Declarations have led to a state, in which some classes are known, and no label has been
bound. -/
structure Declaring (lines : List FieldLine) (drops : MethodId → Prop) (set : ClassSet)
    (labels : Table LabelKey Label) (ids : ClassId → Prop) (s : ApplyState) : Prop where
  steps : ClassSet.Declaration.Steps lines drops set s.classes
  labels : s.scope.labels = labels
  known : ∀ id, ids id → s.classes.HasClass id

namespace Declaring

open ApplyM ClassSet

variable {lines : List FieldLine} {drops : MethodId → Prop} {set : ClassSet}
  {labels : Table LabelKey Label} {ids : ClassId → Prop} {s : ApplyState}

theorem step (declaring : Declaring lines drops set labels ids s) {later : ClassSet} {scope : Scope}
    {summary : ApplySummary} (one : Declaration lines drops s.classes later)
    (same : scope.labels = s.scope.labels) :
    Declaring lines drops set labels ids ⟨later, scope, summary⟩ :=
  ⟨declaring.steps.tail one, same.trans declaring.labels,
    fun id h => one.evolves.hasClass id (declaring.known id h)⟩

theorem addClass (block : ClassBlock) :
    Preserves (Declaring lines drops set labels ids) (addClass block) := by
  refine .ofGet fun s holds => ?_
  dsimp only
  split
  · exact holds
  rename_i free
  have added : Declaration lines drops s.classes (s.classes.addClass
      (.fresh block.ident.name (some objectClass) block.kind.access)) :=
    .addClass _ _ (Option.not_isSome_iff_eq_none.1 free)
  split
  · cases bound : s.scope.bindClass? block.ident.text s.classes.nextClass with
    | none => exact holds.step added rfl
    | some scope =>
      exact holds.step added (Scope.labels_of_bindClass? bound)
  · exact holds.step added rfl

theorem addClasses (blocks : List (ClassBlock × ClassChoice)) :
    Preserves (Declaring lines drops set labels ids) (addClasses blocks) := by
  induction blocks with
  | nil => exact .pure _ _
  | cons e rest ih =>
    obtain ⟨block, choice⟩ := e
    have onward : ∀ choice, Preserves (Declaring lines drops set labels ids) (do
        let rest ← ApplyM.addClasses rest
        pure ((block, choice) :: rest)) := fun _ => ih.bind fun _ => .pure _ _
    unfold ApplyM.addClasses
    dsimp only
    split
    · exact (addClass block).bind fun _ => (Preserves.pure _ _).bind onward
    · exact (Preserves.pure _ _).bind onward

theorem applySuper (line : Nat) (id : ClassId) (l : SupertypeLine) :
    Preserves (Declaring lines drops set labels ids) (applySuper line id l) := by
  have become : ∀ name, Preserves (Declaring lines drops set labels ids) (modifyClasses fun set =>
      set.modifyClass id fun c => { c with superName := some name, modified := true }) :=
    fun name => .modify fun s holds => holds.step
      (.header id _ (fun _ => ⟨rfl, rfl⟩) (fun _ => ⟨rfl, rfl, rfl⟩) (fun _ => ⟨rfl, rfl⟩)
        fun _ => ⟨rfl, rfl⟩) rfl
  unfold ApplyM.applySuper
  dsimp only
  split
  · exact .pure _ _
  · exact (preserves_mapped _ _ _).bind fun _ => become _
  · split
    · exact become _
    · refine (preserves_mapped _ _ _).bind fun name => .ofGet fun s holds => ?_
      split
      · exact preserves_iff.1 (become _) s holds
      · exact holds

theorem applyInterface (line : Nat) (id : ClassId) (l : SupertypeLine) :
    Preserves (Declaring lines drops set labels ids) (applyInterface line id l) := by
  have become : ∀ f : List String → List String, Preserves (Declaring lines drops set labels ids)
      (modifyClasses fun set =>
        set.modifyClass id fun c => { c with interfaces := f c.interfaces, modified := true }) :=
    fun f => .modify fun s holds => holds.step
      (.header id _ (fun _ => ⟨rfl, rfl⟩) (fun _ => ⟨rfl, rfl, rfl⟩) (fun _ => ⟨rfl, rfl⟩)
        fun _ => ⟨rfl, rfl⟩) rfl
  unfold ApplyM.applyInterface
  dsimp only
  split
  · exact .pure _ _
  · exact (preserves_mapped _ _ _).bind fun name =>
      become fun names => if names.contains name then names else names ++ [name]
  · exact (preserves_mapped _ _ _).bind fun name => become fun names => names.filter (· != name)

theorem addField (id : ClassId) {l : FieldLine} (line : l ∈ lines) :
    Preserves (Declaring lines drops set labels ids) (addField id l) := by
  refine .ofGet fun s holds => ?_
  dsimp only
  refine preserves_iff.1 ((preserves_mapped _ _ _).bind fun type => preserves_iff.2
    fun t holds => ?_) s holds
  split
  · refine holds.step (.addField id _ _ line) ?_
    dsimp only
    cases bound : Scope.bindField? _ _ id _ _ with
    | none => rfl
    | some scope => exact (Scope.frame_bindField? bound).1
  · exact holds.step (.addField id _ _ line) rfl

/-- A field line can remove a field of its own class. -/
theorem applyField {id : ClassId} {choice : Option FieldId} (block : ClassBlock) {l : FieldLine}
    (line : l ∈ lines)
    (own : ∀ f, choice = some f → set.HasField f ∧ (set.fieldAt f).declaredBy = id) :
    Preserves (Declaring lines drops set labels ids) (applyField block id l choice) := by
  unfold ApplyM.applyField
  split
  · exact .pure _ _
  · cases choice with
    | none => exact .throw _ _
    | some f =>
      intro s holds
      obtain ⟨known, isOwn⟩ := own f rfl
      have owner : (s.classes.fieldAt f).declaredBy = id :=
        (holds.steps.evolves.field f known).2.trans isOwn
      have removed : Declaration lines drops s.classes ((s.classes.removeField f).mark id) := by
        rw [← owner]
        exact .removeField f
      exact holds.step removed rfl
  · exact (addField id line).bind fun _ => .pure _ _

theorem addMethod {id : ClassId} (known : ids id) (block : MethodBlock) :
    Preserves (Declaring lines drops set labels ids) (addMethod id block) := by
  refine (preserves_mapped _ _ _).bind fun type => .ofGet fun s holds => ?_
  dsimp only
  have isKnown := holds.known id known
  split
  · refine holds.step (.addMethod id block _ _ isKnown) ?_
    dsimp only
    cases bound : Scope.bindMethod? _ _ id _ _ with
    | none => rfl
    | some scope => exact (Scope.frame_bindMethod? bound).1
  · exact holds.step (.addMethod id block _ _ isKnown) rfl

theorem rewriteAccess (id : MethodId) (block : MethodBlock) :
    Preserves (Declaring lines drops set labels ids) (rewriteAccess id block) := by
  refine .ofGet fun s holds => ?_
  dsimp only
  split
  · exact holds.step (.rewriteAccess id block) rfl
  · exact holds

theorem applyMethod {id : ClassId} (known : ids id) (owner : ClassBlock) (block : MethodBlock)
    (choice : Option MethodId) :
    Preserves (Declaring lines AnyMethod set labels ids) (applyMethod owner id block choice) := by
  unfold ApplyM.applyMethod
  split
  · exact (addMethod known block).bind fun _ => .pure _ _
  · refine (preserves_assigned _ _ _).bind fun handle => .ofGet fun s holds => ?_
    exact holds.step (.removeMethod ((s.classes.bodyOf id handle).getD handle) trivial) rfl
  · exact (preserves_assigned _ _ _).bind fun handle =>
      (rewriteAccess handle block).bind fun _ => .pure _ _

theorem removeClass (id : ClassId) :
    Preserves (Declaring lines drops set labels ids) (removeClass id) :=
  .modify fun _ holds => holds.step
    (.header id _ (fun _ => ⟨rfl, rfl⟩) (fun _ => ⟨rfl, rfl, rfl⟩) (fun _ => ⟨rfl, rfl⟩)
      fun _ => ⟨rfl, rfl⟩) rfl

theorem applyClass {e : ClassBlock × ClassChoice} (listed : ∀ l ∈ e.1.fields, l ∈ lines)
    (known : ∀ id, e.2.cls = some id → ids id)
    (own : ∀ id, e.2.cls = some id → ∀ f, some f ∈ e.2.fields →
      set.HasField f ∧ (set.fieldAt f).declaredBy = id) :
    Preserves (Declaring lines AnyMethod set labels ids) (applyClass e.1 e.2) := by
  unfold ApplyM.applyClass
  cases chosen : e.2.cls with
  | none => exact .throw _ _
  | some id =>
    change Preserves _ (if e.1.mode = .remove then _ else _)
    split
    · exact (removeClass id).bind fun _ => .pure _ _
    · refine (Preserves.forM fun l _ => applySuper _ id l).bind fun _ => ?_
      refine (Preserves.forM fun l _ => applyInterface _ id l).bind fun _ => ?_
      refine (Preserves.mapM fun f member => applyField e.1
        (listed _ (List.of_mem_zip member).1) fun x assigned => ?_).bind fun _ => ?_
      · exact own id chosen x (assigned ▸ (List.of_mem_zip member).2)
      · exact (Preserves.mapM fun m _ => applyMethod (known id chosen) e.1 m.1 m.2).bind fun _ =>
          .pure _ _

theorem known_of_addClass {block : ClassBlock} {id : ClassId} {s t : ApplyState}
    (h : (ApplyM.addClass block).run s = .ok id t) : t.classes.HasClass id := by
  obtain ⟨rfl, classes, -⟩ := addClass_result h
  rw [classes]
  simp [HasClass, ClassSet.addClass, nextClass]

/-- The classes of the blocks are known once the added ones have been added. -/
theorem known_of_addClasses {blocks result : List (ClassBlock × ClassChoice)} {s t : ApplyState}
    (h : (ApplyM.addClasses blocks).run s = .ok result t)
    (known : ∀ e ∈ blocks, ∀ id, e.2.cls = some id → s.classes.HasClass id) :
    ∀ e ∈ result, ∀ id, e.2.cls = some id → t.classes.HasClass id := by
  induction blocks generalizing s result with
  | nil =>
    cases h
    exact fun _ member => nomatch member
  | cons e rest ih =>
    obtain ⟨block, choice⟩ := e
    have onward : ∀ {choice : ClassChoice} {u : ApplyState},
        (∀ id, choice.cls = some id → u.classes.HasClass id) →
        (∀ id, s.classes.HasClass id → u.classes.HasClass id) →
        (do
          let rest ← ApplyM.addClasses rest
          pure ((block, choice) :: rest)).run u = .ok result t →
        ∀ e ∈ result, ∀ id, e.2.cls = some id → t.classes.HasClass id := by
      intro choice u first grown h
      obtain ⟨others, v, more, done⟩ := run_bind_ok h
      cases done
      have later := (Changes.addClasses .everything rest u).ok more
      intro e member id chosen
      rcases List.mem_cons.1 member with rfl | member
      · exact later.classes.hasClass id (first id chosen)
      · exact ih more (fun e' inside id' chosen' =>
          grown id' (known e' (.tail _ inside) id' chosen')) e member id chosen
    unfold ApplyM.addClasses at h
    dsimp only at h
    split at h
    · obtain ⟨id, u, added, h⟩ := run_bind_ok h
      have grown := (Changes.addClass .everything block s).ok added
      refine onward ?_ grown.classes.hasClass h
      intro id' chosen
      obtain rfl := Option.some.inj chosen
      exact known_of_addClass added
    · exact onward (known _ List.mem_cons_self) (fun _ h => h) h

/-- The declarations of a script go on in these steps. -/
theorem declare {script : Script} {a : Assignment} {s : ApplyState} (wellFormed : set.WellFormed)
    (full : set.FullAssignment script a) (start : s.classes = set)
    (free : s.scope.labels = labels) :
    Declaring script.fieldLines AnyMethod set labels set.HasClass
      (leftBy (declare script a) s) := by
  have holds : Declaring script.fieldLines AnyMethod set labels set.HasClass s :=
    ⟨start ▸ .refl, free, fun id known => start ▸ known⟩
  have adding := preserves_iff.1 (addClasses (script.classes.zip a)) s holds
  have choices : ∀ e ∈ script.classes.zip a, set.FullChoice e.1 e.2 :=
    fun e inside => (List.forall₂_iff_zip.1 full).2 inside
  unfold ApplyM.declare
  cases added : (ApplyM.addClasses (script.classes.zip a)).run s with
  | error e t =>
    rw [leftBy_error added] at adding
    rw [leftBy, EStateM.run_bind, added]
    exact adding
  | ok blocks t =>
    rw [leftBy_ok added] at adding
    rw [leftBy, EStateM.run_bind, added]
    have prepared := addClasses_ok added
    rw [start] at prepared
    have known := known_of_addClasses added fun e inside id chosen =>
      start ▸ ((set.mem_candidates id).1 ((choices e inside).candidate_of_assigned chosen)).1
    have all : Declaring script.fieldLines AnyMethod set labels t.classes.HasClass t :=
      ⟨adding.steps, adding.labels, fun _ h => h⟩
    have carried := preserves_iff.1 (.mapM fun e member => applyClass ?_ (known e member) ?_) t all
    · exact ⟨carried.steps, carried.labels, carried.steps.evolves.hasClass⟩
    all_goals obtain ⟨b, inside, isPrepared⟩ := exists_mem_of_mem_right prepared member
    · intro l line
      exact List.mem_flatMap.2 ⟨b.1, (List.of_mem_zip inside).1, isPrepared.block ▸ line⟩
    · exact (fitting_of_prepared wellFormed (choices b inside) (List.of_mem_zip inside).2
        isPrepared).fields

end Declaring

/-- A block that neither adds nor removes lines leaves the names alone. -/
theorem BodyContext.editLines_keeps {cx : BodyContext} {insns : List Insn} {places : MethodMatch}
    {index : Nat} {lines : List InsnLine} {names : Labelling}
    (kept : ∀ l ∈ lines, l.mode = .keep) :
    Preserves (fun e : BodyEdit => e.names = names) (cx.editLines insns places index lines) := by
  induction lines generalizing index with
  | nil => exact .pure _ _
  | cons l ls ih =>
    rw [editLines_cons]
    refine Preserves.bind (fun e same => ?_) fun _ => ih fun l' member => kept l' (.tail _ member)
    have mode := kept l List.mem_cons_self
    unfold editLine
    rw [if_neg (by simp [mode])]
    by_cases isRegion : l.pattern.isTryCatch = true
    · rw [if_pos isRegion]
      have := regionLine_run places index l e
      cases h : (regionLine places index l).run e with
      | ok _ t =>
        rw [h] at this
        exact this.2.1.trans same
      | error _ t =>
        rw [h] at this
        exact this.1.trans same
    rw [if_neg isRegion]
    by_cases free : l.pattern = .any
    · rw [if_pos free]
      obtain ⟨anchor, h⟩ := anchorLine_run insns ls e
      rw [h]
      exact same
    · rw [if_neg free]
      have := foundLine_run cx insns places index l e
      cases h : (cx.foundLine insns places index l).run e with
      | ok _ t =>
        rw [h] at this
        exact this.1.trans same
      | error _ t =>
        rw [h] at this
        exact this.1.trans same

theorem MethodBlock.kept_of_changesBody {block : MethodBlock} (quiet : block.changesBody = false) :
    ∀ l ∈ block.insns, l.mode = .keep := by
  intro l member
  simpa using List.any_eq_false.1 quiet l member

/-- What a step of the body phase does when it succeeds. -/
inductive BodyEdited (s : ApplyState) : PendingBody → ApplyState → Prop where
  /-- A block that neither adds nor removes lines. -/
  | idle {cls : ClassId} {handle : MethodId} {block : MethodBlock} : block.changesBody = false →
      BodyEdited s (.matched cls handle block) s
  | build {id : MethodId} {block : MethodBlock} {type : MethodDesc} {edit : BodyEdit} :
      (block.insns.forM (BodyContext.addLine ⟨s.classes, id, type⟩)).run { names := ⟨s.scope, 0⟩ } =
        .ok () edit →
      (edit.apply {}).checkLabels = .ok () →
      BodyEdited s (.added id block)
        { s with
          classes := s.classes.modifyMethod id fun m => { m with code := some (edit.apply {}) }
          scope := edit.names.scope }
  | change {cls : ClassId} {handle body : MethodId} {block : MethodBlock} {type : MethodDesc}
      {code : Code} {places : MethodMatch} {edit : BodyEdit} {summary : ApplySummary} :
      block.changesBody = true → s.classes.bodyOf cls handle = some body →
      (s.classes.methodAt body).code = some code →
      (BodyContext.editLines ⟨s.classes, body, type⟩ code.insns places 0 block.insns).run
        { names := ⟨s.scope, code.nextLabel⟩ } = .ok () edit →
      (edit.apply code).checkLabels = .ok () →
      BodyEdited s (.matched cls handle block)
        ⟨(s.classes.modifyMethod body fun m => { m with code := some (edit.apply code) }).mark
          (s.classes.methodAt body).declaredBy, edit.names.scope, summary⟩

namespace ApplyM

variable {s t : ApplyState}

theorem checkLabels_of_checked {line : Nat} {code code' : Code}
    (h : (checked line code).run s = .ok code' t) :
    code' = code ∧ t = s ∧ code.checkLabels = .ok () := by
  unfold checked at h
  split at h
  · rename_i fine
    cases h
    exact ⟨rfl, rfl, fine⟩
  · cases h

theorem bodyEdited_of_ok {p : PendingBody} (h : (applyBody p).run s = .ok () t) :
    BodyEdited s p t := by
  cases p with
  | added id block =>
    obtain ⟨start, u, got, h⟩ := run_bind_ok h
    cases got
    dsimp only at h
    split at h
    · cases h
    · rename_i type isType
      obtain ⟨edit, v, edited, h⟩ := run_bind_ok h
      obtain ⟨code, w, done, h⟩ := run_bind_ok h
      obtain ⟨ran, rfl⟩ := runEdit_ok edited
      obtain ⟨rfl, rfl, fine⟩ := checkLabels_of_checked done
      cases h
      exact .build ran fine
  | matched cls handle block =>
    rw [applyBody] at h
    split at h
    · rename_i empty
      cases h
      refine .idle ?_
      have noLines : block.insns = [] := by simpa using empty
      simp [MethodBlock.changesBody, noLines]
    · obtain ⟨start, u, got, h⟩ := run_bind_ok h
      cases got
      dsimp only at h
      split at h
      · cases h
      rename_i body isBody
      split at h
      · cases h
      split at h
      · cases h
      rename_i code isCode
      obtain ⟨edit, v, edited, h⟩ := run_bind_ok h
      obtain ⟨ran, rfl⟩ := runEdit_ok edited
      split at h
      · rename_i changes
        obtain ⟨code', w, done, h⟩ := run_bind_ok h
        obtain ⟨rfl, rfl, fine⟩ := checkLabels_of_checked done
        cases h
        exact .change changes isBody isCode ran fine
      · rename_i quiet
        have quiet : block.changesBody = false := by simpa using quiet
        have same := (BodyContext.editLines_keeps
          (MethodBlock.kept_of_changesBody quiet)).ok rfl ran
        cases h
        rw [same]
        exact .idle quiet

theorem runEdit_classes (set : ClassSet) (className method : String) (nextLabel : Nat)
    (m : EditM Unit) :
    Preserves (fun t => t.classes = set) (runEdit className method nextLabel m) := by
  refine .ofGet fun u same => ?_
  cases m.run { names := ⟨u.scope, nextLabel⟩ } with
  | ok _ edit => exact same
  | error fault edit => cases fault <;> exact same

theorem checked_classes (set : ClassSet) (line : Nat) (code : Code) :
    Preserves (fun t => t.classes = set) (checked line code) := by
  unfold checked
  split
  · exact .pure _ _
  · exact .throw _ _

/-- A step of the body phase that fails has not changed any class. -/
theorem classes_of_error {p : PendingBody} {e : ApplyError}
    (h : (applyBody p).run s = .error e t) : t.classes = s.classes := by
  cases p with
  | added id block =>
    rcases run_bind_error h with got | ⟨start, u, got, h⟩
    · cases got
    cases got
    dsimp only at h
    split at h
    · cases h
      rfl
    · rcases run_bind_error h with failed | ⟨edit, v, edited, h⟩
      · exact (runEdit_classes s.classes _ _ _ _).error rfl failed
      · have same := (runEdit_classes s.classes _ _ _ _).ok rfl edited
        rcases run_bind_error h with failed | ⟨code, w, done, h⟩
        · exact (checked_classes s.classes _ _).error same failed
        · cases h
  | matched cls handle block =>
    rw [applyBody] at h
    split at h
    · cases h
    rcases run_bind_error h with got | ⟨start, u, got, h⟩
    · cases got
    cases got
    dsimp only at h
    split at h
    · cases h
      rfl
    split at h
    · cases h
      rfl
    split at h
    · cases h
      rfl
    rcases run_bind_error h with failed | ⟨edit, v, edited, h⟩
    · exact (runEdit_classes s.classes _ _ _ _).error rfl failed
    · have same := (runEdit_classes s.classes _ _ _ _).ok rfl edited
      split at h
      · rcases run_bind_error h with failed | ⟨code, w, done, h⟩
        · exact (checked_classes s.classes _ _).error same failed
        · cases h
      · cases h

end ApplyM

/-- The steps of the body phase, up to one that fails. -/
inductive BodiesEdited : ApplyState → List PendingBody → ClassSet → Prop where
  | stop (s : ApplyState) (pending : List PendingBody) : BodiesEdited s pending s.classes
  | step {s t : ApplyState} {p : PendingBody} {pending : List PendingBody} {later : ClassSet} :
      BodyEdited s p t → BodiesEdited t pending later → BodiesEdited s (p :: pending) later

theorem BodyEdited.evolves {s t : ApplyState} {p : PendingBody} (step : BodyEdited s p t) :
    ClassSet.Evolves .everything s.classes t.classes := by
  cases step with
  | idle => exact .refl _ _
  | build =>
    refine .modifyMethod ?_ (.inl ?_) (.inr trivial) s.classes
    · exact fun m => ⟨rfl, rfl, rfl, rfl⟩
    · exact fun m => rfl
  | change =>
    refine (ClassSet.Evolves.modifyMethod ?_ (.inl ?_) (.inr trivial) s.classes).trans
      (ClassSet.Declaration.evolves_mark _ _ _)
    · exact fun m => ⟨rfl, rfl, rfl, rfl⟩
    · exact fun m => rfl

theorem BodiesEdited.evolves {s : ApplyState} {pending : List PendingBody} {later : ClassSet}
    (steps : BodiesEdited s pending later) : ClassSet.Evolves .everything s.classes later := by
  induction steps with
  | stop s => exact .refl _ _
  | step one _ ih => exact one.evolves.trans ih

/-- Something that does not depend on bodies holds of all methods after the body phase if it held
before. -/
theorem BodiesEdited.allMethods {Q : MethodEntry → Prop} {s : ApplyState}
    {pending : List PendingBody} {later : ClassSet} (edits : BodiesEdited s pending later)
    (all : s.classes.AllMethods Q) (body : ∀ m code, Q m → Q { m with code := some code }) :
    later.AllMethods Q := by
  induction edits with
  | stop => exact all
  | @step s t p pending later one _ ih =>
    refine ih ?_
    have kept : ∀ id code, (s.classes.modifyMethod id fun m =>
        { m with code := some code }).AllMethods Q :=
      fun id code => all.modifyMethod (fun m h => body m code h) id
    cases one with
    | idle => exact all
    | build => exact kept _ _
    | change => exact (kept _ _).ofMethods rfl

theorem ClassSet.MethodsDeclared.edits {s : ApplyState} {pending : List PendingBody}
    {later : ClassSet} (declared : s.classes.MethodsDeclared)
    (edits : BodiesEdited s pending later) : later.MethodsDeclared :=
  edits.allMethods (declared.later edits.evolves.hasClass) fun _ _ h => h

namespace ApplyM

theorem bodiesEdited (pending : List PendingBody) (s : ApplyState) :
    BodiesEdited s pending (leftBy (pending.forM applyBody) s).classes := by
  induction pending generalizing s with
  | nil => exact .stop s []
  | cons p ps ih =>
    rw [leftBy, List.forM, EStateM.run_bind]
    cases ran : (applyBody p).run s with
    | ok x t => exact .step (bodyEdited_of_ok ran) (ih t)
    | error e t =>
      change BodiesEdited s (p :: ps) t.classes
      rw [classes_of_error ran]
      exact .stop s _

end ApplyM

namespace ClassSet

/-- A script that is applied makes declarations and then goes through the bodies that these leave,
as far as it comes. -/
theorem afterApply_steps {set : ClassSet} {script : Script} {r : Resolution}
    (wellFormed : set.WellFormed) (full : set.FullAssignment script r.assignment) :
    (∃ s e, (ApplyM.declare script r.assignment).run ⟨set, r.scope, {}⟩ = .error e s ∧
        Declaring script.fieldLines AnyMethod set r.scope.labels set.HasClass s ∧
        set.afterApply script r = s.classes) ∨
      ∃ applied s, (ApplyM.declare script r.assignment).run ⟨set, r.scope, {}⟩ = .ok applied s ∧
        Declaring script.fieldLines AnyMethod set r.scope.labels set.HasClass s ∧
        BodiesEdited s (applied.flatMap Prod.snd) (set.afterApply script r) := by
  have declaring : Declaring script.fieldLines AnyMethod set r.scope.labels set.HasClass
      (leftBy (ApplyM.declare script r.assignment) ⟨set, r.scope, {}⟩) :=
    .declare wellFormed full rfl rfl
  unfold afterApply
  rw [ApplyM.applyAll_eq]
  cases ran : (ApplyM.declare script r.assignment).run ⟨set, r.scope, {}⟩ with
  | error e s =>
    rw [leftBy_error ran] at declaring
    refine .inl ⟨s, e, rfl, declaring, ?_⟩
    rw [leftBy, EStateM.run_bind, ran]
  | ok applied s =>
    rw [leftBy_ok ran] at declaring
    refine .inr ⟨applied, s, rfl, declaring, ?_⟩
    have steps := ApplyM.bodiesEdited (applied.flatMap Prod.snd) s
    rw [leftBy] at steps
    rw [leftBy, EStateM.run_bind, ran]
    dsimp only
    rw [EStateM.run_bind]
    cases bodies : ((applied.flatMap Prod.snd).forM ApplyM.applyBody).run s with
    | ok x t =>
      rw [bodies] at steps
      exact steps
    | error e t =>
      rw [bodies] at steps
      exact steps

theorem evolves_afterApply {set : ClassSet} {script : Script} {r : Resolution}
    (wellFormed : set.WellFormed) (full : set.FullAssignment script r.assignment) :
    Evolves .everything set (set.afterApply script r) := by
  rcases afterApply_steps wellFormed full with
    ⟨s, e, -, declaring, same⟩ | ⟨applied, s, -, declaring, steps⟩
  · rw [same]
    exact declaring.steps.evolves
  · exact declaring.steps.evolves.trans steps.evolves

/-- The class sets that a run can come to from nothing: class files are taken in, classes are
loaded, inheritance is worked out and accepted scripts are applied. A step that fails leaves what it
has done. -/
inductive Attained (files : ClassFile → Prop) (scripts : ClassSet → Script → Resolution → Prop) :
    ClassSet → Prop where
  | empty (classpath : Classpath) : Attained files scripts { classpath := classpath }
  | insert {set later file source hidden} : Attained files scripts set → files file →
      set.insert? file source hidden = some later → Attained files scripts later
  | load {set} (name : String) : Attained files scripts set →
      Attained files scripts (leftBy (load name) set)
  | shareInherited {set} : Attained files scripts set →
      Attained files scripts (leftBy shareInherited set)
  | loadMentioned {set} : Attained files scripts set →
      Attained files scripts (leftBy loadMentioned set)
  | apply {set script o r} : Attained files scripts set →
      set.resolve script {} (set.verify script) o = .ok r → scripts set script r →
      Attained files scripts (set.afterApply script r)

theorem Attained.wellFormed {files : ClassFile → Prop}
    {scripts : ClassSet → Script → Resolution → Prop} {set : ClassSet}
    (attained : Attained files scripts set) : set.WellFormed := by
  induction attained with
  | empty classpath => exact wellFormed_empty classpath
  | insert _ _ inserted ih => exact (evolves_insert? inserted).wellFormed ih
  | load name _ ih => exact (evolves_leftBy (GrowsAt.load _ name)).wellFormed ih
  | shareInherited _ ih => exact (evolves_leftBy (GrowsAt.shareInherited ih)).wellFormed ih
  | loadMentioned _ ih => exact (evolves_leftBy (GrowsAt.loadMentioned _)).wellFormed ih
  | apply _ accepted _ ih =>
    exact (evolves_afterApply ih (firstAccepted_of_resolve accepted).full).wellFormed ih

theorem Attained.methodsDeclared {files : ClassFile → Prop}
    {scripts : ClassSet → Script → Resolution → Prop} {set : ClassSet}
    (attained : Attained files scripts set) : set.MethodsDeclared := by
  induction attained with
  | empty classpath => exact .empty _ classpath
  | insert _ _ inserted ih => exact ih.insert? inserted
  | load name _ ih => exact ih.intake (preserves_iff.1 (Intake.load name) _ .refl)
  | shareInherited _ ih => exact ih.intake (preserves_iff.1 Intake.shareInherited _ .refl)
  | loadMentioned _ ih => exact ih.intake (preserves_iff.1 Intake.loadMentioned _ .refl)
  | apply before accepted _ ih =>
    rcases afterApply_steps before.wellFormed (firstAccepted_of_resolve accepted).full with
      ⟨s, e, -, declaring, same⟩ | ⟨applied, s, -, declaring, edits⟩
    · rw [same]
      exact ih.declarations declaring.steps
    · exact (ih.declarations declaring.steps).edits edits

/-- Every class set that steps without a failure lead to is among them. -/
theorem Reachable.attained {set : ClassSet} (reachable : Reachable set) :
    Attained (fun _ => True) (fun _ _ _ => True) set := by
  induction reachable with
  | empty classpath => exact .empty classpath
  | insert _ inserted ih => exact .insert ih trivial inserted
  | load _ ran ih => exact leftBy_ok ran ▸ .load _ ih
  | shareInherited _ ran ih => exact leftBy_ok ran ▸ .shareInherited ih
  | loadMentioned _ ran ih => exact leftBy_ok ran ▸ .loadMentioned ih
  | apply _ accepted applied ih =>
    exact afterApply_of_ok applied ▸ .apply ih accepted trivial

end ClassSet

end JvmPatch
