import JvmPatch.Proofs.Apply.Removal
import JvmPatch.Proofs.Apply.Transitions
import JvmPatch.Proofs.ClassSet.Views
import Mathlib.Data.List.Find

/-! What classes show after scripts. A method that is removed leaves all views and the class that
declares it. Where these are not the same places, a class goes on declaring a method for which it
shows nothing, or shows one for which it declares nothing; elsewhere views stay aligned. -/

set_option autoImplicit false

namespace JvmPatch

/-- The method that goes if the block of a target removes one. -/
def MethodTarget.dropped (set : ClassSet) (t : MethodTarget) : MethodId :=
  (t.body? set).getD t.handle

/-- The blocks of a script remove different methods, and each of these is shown where it is declared
and nowhere else. -/
structure Script.RemovesShown (set : ClassSet) (script : Script) (a : Assignment) : Prop where
  shown : ∀ t ∈ script.targets a, t.removes = true → ∀ (cls : ClassId) (place : Nat),
    (set.classAt cls).view[place]? = some (t.dropped set) ↔
      (set.classAt cls).methods[place]? = some (t.dropped set)
  different : (script.targets a).Pairwise fun t u => t.removes = true → u.removes = true →
    t.dropped set ≠ u.dropped set

namespace ClassSet

variable {set later latest : ClassSet} {own : MethodId → Prop}

/-- For every method that an aligned class shows, it declares one of its signature. -/
theorem Aligned.exists_declared (aligned : set.Aligned own) {cls : ClassId} {m : MethodId}
    (shown : m ∈ (set.classAt cls).view) : ∃ d ∈ (set.classAt cls).methods,
      set.declaredMethod? (set.methodAt m).name (set.methodAt m).desc cls = some d := by
  have inside := List.mem_map_of_mem (f := set.signature) shown
  rw [aligned.map_signature] at inside
  obtain ⟨d, declared, same⟩ := List.mem_map.1 inside
  obtain ⟨name, desc⟩ := Prod.mk.inj same
  have isSome : (set.declaredMethod? (set.methodAt m).name (set.methodAt m).desc cls).isSome =
      true :=
    List.find?_isSome.2 ⟨d, declared, by simp [MethodEntry.hasSignature, name, desc]⟩
  obtain ⟨first, found⟩ := Option.isSome_iff_exists.1 isSome
  exact ⟨first, List.mem_of_find?_eq_some found, found⟩

/-- The first declared method of a signature, in terms of signatures. -/
theorem declaredMethod?_eq (set : ClassSet) (name desc : String) (cls : ClassId) :
    set.declaredMethod? name desc cls =
      (set.classAt cls).methods.find? fun m => set.signature m == (name, desc) := rfl

/-- Declarations that remove no method declare methods after those that are there. -/
theorem methods_declaration {lines : List FieldLine} (step : Declaration lines NoMethod set later)
    (cls : ClassId) : ∃ new, (later.classAt cls).methods = (set.classAt cls).methods ++ new := by
  have marked (s : ClassSet) (id : ClassId) :
      ((s.mark id).classAt cls).methods = (s.classAt cls).methods :=
    s.classAt_modifyClass_same (·.methods) (f := fun c => { c with modified := true })
      (fun _ => rfl) id cls
  have unchanged (same : (later.classAt cls).methods = (set.classAt cls).methods) :
      ∃ new, (later.classAt cls).methods = (set.classAt cls).methods ++ new :=
    ⟨[], by rw [same, List.append_nil]⟩
  cases step with
  | addClass name kind => exact unchanged (list_addClass (·.methods) rfl rfl cls)
  | header id f _ lists =>
    exact unchanged (set.classAt_modifyClass_same (·.methods) (fun c => (lists c).1) id cls)
  | addField id name desc =>
    exact unchanged ((marked _ id).trans
      (set.part_addField (·.methods) (fun _ _ => rfl) id _ false cls))
  | removeField id =>
    exact unchanged ((marked _ _).trans (set.part_removeField (·.methods) (fun _ _ => rfl) id cls))
  | addMethod id block name desc known =>
    rw [marked]
    unfold addMethod
    rcases Evolves.classAt_modifyClass_cases _ id _ cls with same | ⟨-, changed⟩
    · rw [same]
      exact ⟨[], (List.append_nil _).symm⟩
    · rw [changed]
      exact ⟨[set.nextMethod], rfl⟩
  | removeMethod id drops => exact drops.elim
  | rewriteAccess id block => exact unchanged (marked _ _)

theorem Aligned.mark (aligned : set.Aligned own) (id : ClassId) : (set.mark id).Aligned own :=
  aligned.modifyClass (aligned id)

/-- Declarations that remove no method leave views aligned. -/
theorem Aligned.declaration {lines : List FieldLine} (aligned : set.Aligned own)
    (step : Declaration lines NoMethod set later) : later.Aligned own := by
  cases step with
  | addClass name kind => exact aligned.addClass rfl rfl
  | header id f _ lists =>
    refine aligned.modifyClass ?_
    rw [(lists _).1, (lists _).2.2]
    exact aligned id
  | addField id name desc => exact (aligned.addField id _ false).mark id
  | removeField id =>
    have hidden : (set.modifyField id fun f => { f with hidden := true }).Aligned own :=
      aligned.ofClasses (.ofMethods rfl) rfl
    exact Aligned.mark (hidden.modifyClass (hidden _)) _
  | addMethod id block name desc known => exact (aligned.addMethod id _ false).mark id
  | removeMethod id drops => exact drops.elim
  | rewriteAccess id block =>
    have rewritten : (set.modifyMethod id fun m =>
        { m with access := block.accessOver (set.methodAt id).access }).Aligned own :=
      aligned.modifyMethod id fun _ => rfl
    exact rewritten.mark _

/-- The first method of a signature stays the first when more are declared. -/
theorem declaredMethod?_of_append {cls : ClassId} {name desc : String} {d : MethodId}
    {new : List MethodId} (aligned : set.Aligned own) (keeps : KeepsSignatures set later)
    (methods : (later.classAt cls).methods = (set.classAt cls).methods ++ new)
    (first : set.declaredMethod? name desc cls = some d) :
    later.declaredMethod? name desc cls = some d := by
  have places := aligned cls
  rw [declaredMethod?_eq] at first ⊢
  rw [methods, List.find?_append]
  have same : ((set.classAt cls).methods.find? fun m => later.signature m == (name, desc)) =
      some d := by
    rw [← first]
    refine List.find?_congr fun m member => ?_
    obtain ⟨_, -, shown⟩ := exists_mem_of_mem_right places member
    rw [keeps.signature m shown.declaredKnown]
  rw [same, Option.some_or]

/-- The first method of a signature stays the first when another method goes. -/
theorem declaredMethod?_removeMethod {cls : ClassId} {name desc : String} {d m : MethodId}
    (first : set.declaredMethod? name desc cls = some d) (other : d ≠ m) :
    (set.removeMethod m).declaredMethod? name desc cls = some d := by
  have signature (n : MethodId) : (set.removeMethod m).signature n = set.signature n :=
    set.methodAt_modifyMethod_same (fun e => (e.name, e.desc)) (f := fun e => { e with
      hidden := true })
      (fun _ => rfl) m n
  rw [declaredMethod?_eq] at first ⊢
  simp only [signature, set.classAt_removeMethod, List.find?_filter]
  obtain ⟨isSignature, before, after, split, others⟩ := List.find?_eq_some_iff_append.1 first
  refine List.find?_eq_some_iff_append.2 ⟨?_, before, after, split, fun n member => ?_⟩
  · simpa using ⟨other, eq_of_beq isSignature⟩
  · have := others n member
    simp_all

end ClassSet

open ClassSet

/-- Some targets of a script are still to come. If their blocks remove methods, these are different
ones, which are shown where they are declared, and each block finds its method. -/
structure Removing (base : ClassSet) (ids : ClassId → Prop) (own : MethodId → Prop)
    (rest : List MethodTarget) (s : ApplyState) : Prop where
  evolves : Evolves .everything base s.classes
  known : ∀ id, ids id → s.classes.HasClass id
  aligned : s.classes.Aligned own
  due : ∀ t ∈ rest, t.removes = true → s.classes.HasMethod t.handle ∧ own (t.dropped base) ∧
    s.classes.declaredMethod? (s.classes.methodAt t.handle).name
      (s.classes.methodAt t.handle).desc t.cls =
      some (t.dropped base)
  different : rest.Pairwise fun t u => t.removes = true → u.removes = true →
    t.dropped base ≠ u.dropped base

namespace Removing

open ApplyM

variable {base : ClassSet} {ids : ClassId → Prop} {own : MethodId → Prop} {t : MethodTarget}
  {rest : List MethodTarget} {s u : ApplyState}

theorem tail (removing : Removing base ids own (t :: rest) s) : Removing base ids own rest s :=
  { removing with
    due := fun u member => removing.due u (.tail _ member)
    different := removing.different.of_cons }

/-- Declarations that remove no method leave the methods that are to be removed. -/
theorem declarations {lines : List FieldLine} (removing : Removing base ids own rest s)
    (steps : Declaration.Steps lines NoMethod s.classes u.classes) :
    Removing base ids own rest u := by
  have kept : u.classes.Aligned own ∧ ∀ cls name desc d,
      s.classes.declaredMethod? name desc cls = some d →
        u.classes.declaredMethod? name desc cls = some d := by
    generalize u.classes = later at steps
    induction steps with
    | refl => exact ⟨removing.aligned, fun _ _ _ _ first => first⟩
    | tail _ step ih =>
      refine ⟨ih.1.declaration step, fun cls name desc d first => ?_⟩
      obtain ⟨new, methods⟩ := methods_declaration step cls
      exact declaredMethod?_of_append ih.1 step.evolves.keepsSignatures methods
        (ih.2 cls name desc d first)
  have evolves := Declaration.Steps.evolves steps
  refine ⟨removing.evolves.trans evolves,
    fun id h => evolves.hasClass id (removing.known id h), kept.1, fun t member removes => ?_,
    removing.different⟩
  obtain ⟨known, isOwn, first⟩ := removing.due t member removes
  obtain ⟨name, desc, -⟩ := evolves.signature t.handle known
  rw [name, desc]
  exact ⟨evolves.hasMethod _ known, isOwn, kept.2 _ _ _ _ first⟩

theorem preserved {α : Type} (lines : List FieldLine) {m : ApplyM α}
    (declares : ∀ s, Removing base ids own rest s →
      Preserves (Declaring lines NoMethod s.classes s.scope.labels ids) m) :
    Preserves (Removing base ids own rest) m :=
  preserves_iff.2 fun s removing => removing.declarations
    (preserves_iff.1 (declares s removing) s ⟨.refl, rfl, removing.known⟩).steps

/-- A block that removes a method finds the method that it is to remove. -/
theorem bodyOf (removing : Removing base ids own (t :: rest) s) (removes : t.removes = true) :
    s.classes.bodyOf t.cls t.handle = some (t.dropped base) :=
  bodyOf_of_declaredMethod? (removing.due t List.mem_cons_self removes).2.2

/-- When the method is removed, the others are still there. -/
theorem remove (removing : Removing base ids own (t :: rest) s) (removes : t.removes = true)
    (id : ClassId) (same : u.classes = (s.classes.removeMethod (t.dropped base)).mark id) :
    Removing base ids own rest u := by
  obtain ⟨-, isOwn, -⟩ := removing.due t List.mem_cons_self removes
  have removed := removing.aligned.removeMethod isOwn
  have evolves : Evolves .everything s.classes u.classes := same ▸
    (Evolves.removeMethod s.classes fun _ _ => ⟨trivial, trivial⟩).trans
      (Declaration.evolves_mark _ _ id)
  refine ⟨removing.evolves.trans evolves, fun id h => evolves.hasClass id (removing.known id h),
    same ▸ removed.mark id, fun t' member removes' => ?_, removing.different.of_cons⟩
  obtain ⟨known, isOwn', first⟩ := removing.due t' (.tail _ member) removes'
  obtain ⟨name, desc, -⟩ := evolves.signature t'.handle known
  refine ⟨evolves.hasMethod _ known, isOwn', ?_⟩
  rw [name, desc, same]
  have different := (List.rel_of_pairwise_cons removing.different member removes removes').symm
  have methods (s : ClassSet) (cls : ClassId) :
      ((s.mark id).classAt cls).methods = (s.classAt cls).methods ++ [] := by
    rw [List.append_nil]
    exact s.classAt_modifyClass_same (·.methods) (f := fun c => { c with modified := true })
      (fun _ => rfl) id cls
  exact declaredMethod?_of_append removed (.ofMethods rfl) (methods _ _)
    (declaredMethod?_removeMethod first different)

/-- The views of a state are aligned, whatever is still to come. -/
theorem isAligned (s : ApplyState) (removing : Removing base ids own rest s) :
    s.classes.Aligned NoMethod :=
  removing.aligned.mono fun _ none => none.elim

/-- A method block deals with its target. -/
theorem applyMethod {id : ClassId} (known : ids id) (owner : ClassBlock) (block : MethodBlock)
    (choice : Option MethodId) :
    Leads (Removing base ids own (block.target id .keep choice ++ rest))
      (fun _ => Removing base ids own rest) (·.classes.Aligned NoMethod)
      (applyMethod owner id block choice) := by
  unfold ApplyM.applyMethod MethodBlock.target
  cases isMode : block.mode with
  | add =>
    rw [if_pos rfl]
    refine .of_preserves (.bind (preserved [] fun _ _ => ?_) fun _ => .pure _ _) isAligned
    exact Declaring.addMethod known block
  | remove =>
    rw [if_neg (by decide)]
    cases choice with
    | none => exact fun s removing => removing.isAligned s
    | some handle =>
      intro s removing
      have removes : MethodTarget.removes ⟨id, handle, block, .keep⟩ = true := by
        simp [MethodTarget.removes, isMode]
      have body := removing.bodyOf removes
      refine removing.remove removes
        (s.classes.methodAt ((s.classes.bodyOf id handle).getD handle)).declaredBy ?_
      rw [show s.classes.bodyOf id handle = some _ from body]
      rfl
  | keep =>
    rw [if_neg (by decide)]
    cases choice with
    | none => exact fun s removing => removing.isAligned s
    | some handle =>
      refine Leads.mono (P := Removing base ids own rest) ?_ (fun s removing => removing.tail)
        fun _ _ h => h
      refine .of_preserves
        (.bind (preserved [] fun _ _ => ApplyM.preserves_assigned _ _ _) fun handle =>
        .bind (preserved [] fun _ _ => ?_) fun _ => .pure _ _) isAligned
      exact Declaring.rewriteAccess handle block

/-- A class block deals with its targets. -/
theorem applyClass {e : ClassBlock × ClassChoice} (known : ∀ id, e.2.cls = some id → ids id)
    (own' : ∀ id, e.2.cls = some id → ∀ f, some f ∈ e.2.fields →
      base.HasField f ∧ (base.fieldAt f).declaredBy = id) :
    Leads (Removing base ids own (carriedTargets e ++ rest)) (fun _ => Removing base ids own rest)
      (·.classes.Aligned NoMethod) (applyClass e.1 e.2) := by
  unfold ApplyM.applyClass carriedTargets
  cases chosen : e.2.cls with
  | none => exact fun s removing => removing.isAligned s
  | some id =>
    change Leads _ _ _ (if e.1.mode = .remove then _ else _)
    dsimp only
    split
    · refine .of_preserves (.bind (preserved [] fun _ _ => ?_) fun _ => .pure _ _) isAligned
      exact Declaring.removeClass id
    · have fields (f : FieldLine × Option FieldId) (member : f ∈ e.1.fields.zip e.2.fields)
          (rest : List MethodTarget) :
          Preserves (Removing base ids own rest) (applyField e.1 id f.1 f.2) :=
        preserved e.1.fields fun s removing =>
          Declaring.applyField e.1 (List.of_mem_zip member).1 fun x isField => by
            obtain ⟨has, declared⟩ := own' id chosen x (isField ▸ (List.of_mem_zip member).2)
            exact ⟨removing.evolves.hasField x has, (removing.evolves.field x has).2.trans declared⟩
      have supers (rest : List MethodTarget) :
          Preserves (Removing base ids own rest) (e.1.supers.forM (applySuper e.1.line id)) :=
        .forM fun l _ => preserved [] fun _ _ => Declaring.applySuper _ id l
      have interfaces (rest : List MethodTarget) :
          Preserves (Removing base ids own rest)
            (e.1.interfaces.forM (applyInterface e.1.line id)) :=
        .forM fun l _ => preserved [] fun _ _ => Declaring.applyInterface _ id l
      refine (Leads.of_preserves (supers _) isAligned).bind fun _ =>
        (Leads.of_preserves (interfaces _) isAligned).bind fun _ =>
          (Leads.of_preserves (.mapM fun f member => fields f member _) isAligned).bind fun _ => ?_
      refine Leads.bind (.mapM (P := fun ms : List (MethodBlock × Option MethodId) =>
        Removing base ids own (ms.flatMap (fun m => m.1.target id .keep m.2) ++ rest))
          fun m _ ms => ?_)
        fun _ => .pure (fun _ => Removing base ids own rest) _
      rw [List.flatMap_cons, List.append_assoc]
      exact applyMethod (known id chosen) e.1 m.1 m.2

/-- Before the declarations of a script all of its targets are still to come. -/
theorem start {set : ClassSet} {script : Script} {a : Assignment} (wellFormed : set.WellFormed)
    (full : set.FullAssignment script a) (aligned : set.Aligned NoMethod)
    (shown : script.RemovesShown set a) (same : s.classes = set) :
    Removing set (fun _ => False) (fun m => ∃ t ∈ script.targets a, t.removes = true ∧
      t.dropped set = m)
      ((script.targets a).filter fun t => t.mode == .keep) s := by
  subst same
  refine ⟨.refl _ _, fun _ none => none.elim, ?_, fun t member removes => ?_,
    shown.different.filter _⟩
  · refine aligned.of_places ?_
    rintro m ⟨t, member, removes, rfl⟩
    exact shown.shown t member removes
  · have isTarget := (List.mem_filter.1 member).1
    obtain ⟨e, inside, isClass, isMethod⟩ := choice_of_target isTarget
    obtain ⟨cls, isClass', candidate⟩ :=
      ((List.forall₂_iff_zip.1 full).2 inside).methodCandidate isMethod
    obtain rfl := Option.some.inj (isClass.symm.trans isClass')
    have isShown := (List.mem_filter.1 candidate).1
    obtain ⟨d, -, first⟩ := aligned.exists_declared isShown
    have dropped : t.dropped s.classes = d := by
      rw [MethodTarget.dropped, MethodTarget.body?, bodyOf_of_declaredMethod? first,
        Option.getD_some]
    exact ⟨wellFormed.views _ _ isShown, ⟨t, isTarget, removes, rfl⟩, dropped ▸ first⟩

/-- Declarations of a script leave views aligned, also if they fail. -/
theorem declare {set : ClassSet} {script : Script} {a : Assignment} (wellFormed : set.WellFormed)
    (full : set.FullAssignment script a) (aligned : set.Aligned NoMethod)
    (shown : script.RemovesShown set a) (same : s.classes = set) :
    (leftBy (ApplyM.declare script a) s).classes.Aligned NoMethod := by
  have removing := start wellFormed full aligned shown same
  have adding := preserves_iff.1
    (preserved [] fun _ _ => Declaring.addClasses (script.classes.zip a)) s removing
  unfold ApplyM.declare
  rw [leftBy, EStateM.run_bind]
  cases added : (addClasses (script.classes.zip a)).run s with
  | error e u =>
    rw [leftBy_error added] at adding
    exact adding.isAligned u
  | ok blocks u =>
    rw [leftBy_ok added] at adding
    have choices : ∀ e ∈ script.classes.zip a, set.FullChoice e.1 e.2 :=
      fun e inside => (List.forall₂_iff_zip.1 full).2 inside
    have prepared := addClasses_ok added
    rw [same] at prepared
    have known := Declaring.known_of_addClasses added fun e inside id chosen =>
      same ▸ ((set.mem_candidates id).1 ((choices e inside).candidate_of_assigned chosen)).1
    have all : Removing set u.classes.HasClass _ (blocks.flatMap carriedTargets) u :=
      carriedTargets_of_addClasses full added ▸ { adding with known := fun _ h => h }
    refine Leads.leftBy (Leads.mono (.mapM (P := fun es : List (ClassBlock × ClassChoice) =>
      Removing set u.classes.HasClass _ (es.flatMap carriedTargets)) fun e member rest => ?_)
      (fun _ h => h) fun _ t h => h.isAligned t) all
    obtain ⟨b, inside, isPrepared⟩ := exists_mem_of_mem_right prepared member
    exact applyClass (known e member)
      (fitting_of_prepared wellFormed (choices b inside) (List.of_mem_zip inside).2
        isPrepared).fields

end Removing

namespace ClassSet

/-- A script that removes methods only where they are shown leaves views aligned, as far as it
goes. -/
theorem Aligned.afterApply {set : ClassSet} {script : Script} {r : Resolution}
    (aligned : set.Aligned NoMethod) (wellFormed : set.WellFormed)
    (full : set.FullAssignment script r.assignment) (shown : script.RemovesShown set r.assignment) :
    (set.afterApply script r).Aligned NoMethod := by
  have declared := Removing.declare (s := ⟨set, r.scope, {}⟩) wellFormed full aligned shown rfl
  rcases afterApply_steps wellFormed full with ⟨s, e, ran, -, same⟩ | ⟨applied, s, ran, -, edits⟩
  · rw [leftBy_error ran] at declared
    rwa [same]
  · rw [leftBy_ok ran] at declared
    clear ran
    generalize applied.flatMap Prod.snd = pending, set.afterApply script r = later at edits
    induction edits with
    | stop => exact declared
    | step one _ ih =>
      refine ih ?_
      cases one with
      | idle => exact declared
      | build => exact declared.modifyMethod _ fun _ => rfl
      | change =>
        refine Aligned.mark ?_ _
        exact declared.modifyMethod _ fun _ => rfl

/-- However a class set comes about by taking classes in, working out inheritance and applying
scripts, as long as these remove methods only where they are shown, the view of each class has the
names and descriptors of its declared methods, in order, and the body behind a method that is seen
through a class is one that the class declares itself. -/
theorem attained_views {files : ClassFile → Prop} {set : ClassSet}
    (attained : Attained files (fun set script r => script.RemovesShown set r.assignment) set)
    (cls : ClassId) :
    ((set.classAt cls).view.map fun m => ((set.methodAt m).name, (set.methodAt m).desc)) =
        (set.classAt cls).methods.map (fun m => ((set.methodAt m).name, (set.methodAt m).desc)) ∧
      ∀ m ∈ (set.classAt cls).view, ∃ d ∈ (set.classAt cls).methods, set.bodyOf cls m = some d := by
  have aligned : set.Aligned NoMethod := by
    clear cls
    induction attained with
    | empty classpath => exact .empty _ classpath
    | insert _ _ inserted ih => exact ih.insert? inserted
    | load name _ ih => exact ih.intake (preserves_iff.1 (Intake.load name) _ .refl)
    | shareInherited _ ih => exact ih.intake (preserves_iff.1 Intake.shareInherited _ .refl)
    | loadMentioned _ ih => exact ih.intake (preserves_iff.1 Intake.loadMentioned _ .refl)
    | apply before accepted shown ih =>
      exact ih.afterApply before.wellFormed (firstAccepted_of_resolve accepted).full shown
  refine ⟨aligned.map_signature cls, fun m shown => ?_⟩
  obtain ⟨d, declared, first⟩ := aligned.exists_declared shown
  exact ⟨d, declared, bodyOf_of_declaredMethod? first⟩

/-- A block that removes `run` from the subclass. -/
def removesRun : Script :=
  ⟨[⟨.keep, .ordinary, ⟨"p/C", false⟩, 1, [], [], [],
    [⟨.remove, ⟨"run", false⟩, "()V", ⟨[], .void⟩, false, false, false, [], 2⟩]⟩]⟩

def removesRunFound : Resolution := ⟨{}, [⟨some ⟨1⟩, [], [some ⟨1⟩]⟩]⟩

/-- Before inheritance has been worked out, both classes show their own methods. -/
theorem removesShown_twoClasses :
    removesRun.RemovesShown twoClasses removesRunFound.assignment := by
  have same : ∀ cls, (twoClasses.classAt cls).view = (twoClasses.classAt cls).methods := by
    rintro ⟨_ | _ | n⟩
    · with_unfolding_all decide
    · with_unfolding_all decide
    · have size : twoClasses.classes.size = 2 := by with_unfolding_all decide
      rw [classAt, Array.getElem?_eq_none (by simp [size])]
      rfl
  exact ⟨fun t _ _ cls place => by rw [same], List.pairwise_singleton _ _⟩

theorem attained_views_twoClasses :
    let set := twoClasses.afterApply removesRun removesRunFound
    Attained (fun _ => True) (fun set script r => script.RemovesShown set r.assignment) set ∧
      (set.classAt ⟨1⟩).methods = [] ∧
      ((set.classAt ⟨0⟩).view.map fun m => ((set.methodAt m).name, (set.methodAt m).desc)) =
        (set.classAt ⟨0⟩).methods.map
          (fun m => ((set.methodAt m).name, (set.methodAt m).desc)) := by
  obtain ⟨parent, first, second⟩ := exists_insert?_twoClasses
  have accepted : twoClasses.resolve removesRun {} (twoClasses.verify removesRun) {} =
      .ok removesRunFound :=
    resolve_of_candidates candidates_twoClasses (by decide) (by with_unfolding_all decide)
  have attained : Attained (fun _ => True)
    (fun set script r => script.RemovesShown set r.assignment)
      (twoClasses.afterApply removesRun removesRunFound) :=
    .apply (.insert (.insert (.empty []) trivial first) trivial second) accepted
      removesShown_twoClasses
  exact ⟨attained, by with_unfolding_all decide, (attained_views attained ⟨0⟩).1⟩

/-- Once the subclass's method is shown in place of that of the superclass, removing it leaves the
superclass with a method that it does not show. -/
theorem reachable_unshown :
    ∃ set, Reachable set ∧ (set.classAt ⟨0⟩).view = [] ∧ (set.classAt ⟨0⟩).methods = [⟨0⟩] := by
  have accepted : family.resolve removesRun {} (family.verify removesRun) {} =
      .ok removesRunFound :=
    resolve_of_candidates candidates_family (by decide) (by decide)
  have lists : (family.apply removesRun removesRunFound).toOption.map
    (fun result => ((result.classes.classAt ⟨0⟩).view, (result.classes.classAt ⟨0⟩).methods)) =
      some ([], [⟨0⟩]) := by with_unfolding_all decide
  obtain ⟨result, applied, same⟩ := exists_ok_of_map lists
  obtain ⟨view, methods⟩ := Prod.mk.inj same
  exact ⟨result.classes, .apply reachable_family accepted applied, view, methods⟩

end ClassSet

end JvmPatch
