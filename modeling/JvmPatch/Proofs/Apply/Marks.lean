import JvmPatch.Proofs.Apply.Transitions
import JvmPatch.ClassFile.Writer

/-! Every class that a script edits is marked as modified. What is stored for a class that is not
marked are the bytes that it was read from, so no edit is lost. -/

set_option autoImplicit false

namespace JvmPatch

namespace ClassSet

/-- New classes and those that are marked may have been edited with all that they declare. -/
def Permit.marked (set later : ClassSet) : Permit where
  cls id := ¬set.HasClass id ∨ (later.classAt id).modified = true
  access m := ¬set.HasMethod m ∨ ¬set.HasClass (set.methodAt m).declaredBy ∨
    (later.classAt (set.methodAt m).declaredBy).modified = true
  code m := ¬set.HasMethod m ∨ ¬set.HasClass (set.methodAt m).declaredBy ∨
    (later.classAt (set.methodAt m).declaredBy).modified = true
  drop _ _ _ := True

def Permit.only (id : ClassId) : Permit :=
  ⟨(· = id), fun _ => False, fun _ => False, fun _ _ _ => True⟩

/-- Only the flags and the body of one method may be edited. -/
def Permit.onlyMethod (id : MethodId) : Permit :=
  ⟨fun _ => False, (· = id), (· = id), fun _ _ _ => True⟩

theorem Evolves.writeBody (set : ClassSet) (id : MethodId) (code : Code) :
    Evolves (.onlyMethod id) set (set.modifyMethod id fun m => { m with code := some code }) := by
  refine .modifyMethod ?_ (.inl ?_) (.inr rfl) set
  · exact fun m => ⟨rfl, rfl, rfl, rfl⟩
  · exact fun m => rfl

/-- Marks stay, and the bytes that classes were read from are kept. -/
structure KeepsMarks (set later : ClassSet) : Prop where
  modified : ∀ id, set.HasClass id → (set.classAt id).modified = true →
    (later.classAt id).modified = true
  source : ∀ id, set.HasClass id → (later.classAt id).source = (set.classAt id).source

namespace KeepsMarks

variable {set later latest : ClassSet}

theorem refl (set : ClassSet) : set.KeepsMarks set := ⟨fun _ _ h => h, fun _ _ => rfl⟩

theorem trans (first : set.KeepsMarks later) (second : later.KeepsMarks latest)
    (hasClass : ∀ id, set.HasClass id → later.HasClass id) : set.KeepsMarks latest :=
  ⟨fun id known h => second.modified id (hasClass id known) (first.modified id known h),
    fun id known => (second.source id (hasClass id known)).trans (first.source id known)⟩

theorem ofClasses (same : later.classes = set.classes) : set.KeepsMarks later := by
  have classAt : later.classAt = set.classAt := by
    funext id
    rw [ClassSet.classAt, same]
    rfl
  exact ⟨fun id _ h => by rwa [classAt], fun id _ => by rw [classAt]⟩

theorem addClass (set : ClassSet) (c : ClassEntry) : set.KeepsMarks (set.addClass c) := by
  constructor
  · intro id known h
    rwa [set.classAt_addClass_of_known c known]
  · intro id known
    rw [set.classAt_addClass_of_known c known]

theorem modifyClass {id : ClassId} {f : ClassEntry → ClassEntry} (set : ClassSet)
    (modified : ∀ c, c.modified = true → (f c).modified = true)
    (source : ∀ c, (f c).source = c.source) : set.KeepsMarks (set.modifyClass id f) := by
  constructor
  · intro other known h
    rcases Evolves.classAt_modifyClass_cases set id f other with same | ⟨-, changed⟩
    · rwa [same]
    · rw [changed]
      exact modified _ h
  · intro other _
    exact set.classAt_modifyClass_same (·.source) source id other

theorem mark (set : ClassSet) (id : ClassId) : set.KeepsMarks (set.mark id) := by
  refine .modifyClass set ?_ ?_
  · exact fun c _ => rfl
  · exact fun c => rfl

theorem addField (set : ClassSet) (id : ClassId) (f : FieldDecl) (hidden : Bool) :
    set.KeepsMarks (set.addField id f hidden) := by
  have pushed : set.KeepsMarks { set with
      fields := set.fields.push { f with declaredBy := id, owners := [id], hidden := hidden } } :=
    .ofClasses rfl
  refine pushed.trans (.modifyClass _ ?_ ?_) fun _ known => known
  · exact fun _ h => h
  · exact fun _ => rfl

theorem addMethod (set : ClassSet) (id : ClassId) (m : MethodDecl) (hidden : Bool) :
    set.KeepsMarks (set.addMethod id m hidden) := by
  have pushed : set.KeepsMarks { set with
      methods := set.methods.push { m with declaredBy := id, owners := [id], hidden := hidden } } :=
    .ofClasses rfl
  refine pushed.trans (.modifyClass _ ?_ ?_) fun _ known => known
  · exact fun _ h => h
  · exact fun _ => rfl

theorem removeField (set : ClassSet) (id : FieldId) : set.KeepsMarks (set.removeField id) := by
  have hid : set.KeepsMarks (set.modifyField id fun f => { f with hidden := true }) :=
    .ofClasses rfl
  refine hid.trans (.modifyClass _ ?_ ?_) fun _ known => known
  · exact fun _ h => h
  · exact fun _ => rfl

theorem removeMethod (set : ClassSet) (id : MethodId) : set.KeepsMarks (set.removeMethod id) := by
  have entry : ∀ cls, set.HasClass cls →
      ((set.removeMethod id).classAt cls).modified = (set.classAt cls).modified ∧
        ((set.removeMethod id).classAt cls).source = (set.classAt cls).source := by
    intro cls known
    simp only [classAt, ClassSet.removeMethod, ClassSet.modifyMethod, Array.getElem?_map,
      Array.getElem?_eq_getElem known, Option.map_some, Option.getD_some, and_self]
  exact ⟨fun cls known h => (entry cls known).1.trans h, fun cls known => (entry cls known).2⟩

end KeepsMarks

theorem modified_mark {set : ClassSet} {id : ClassId} (known : set.HasClass id) :
    ((set.mark id).classAt id).modified = true := by
  rw [mark, set.classAt_modifyClass_self _ known]

/-- One class set has become another by changes of marked classes. -/
structure Marked (set later : ClassSet) : Prop where
  evolves : Evolves (.marked set later) set later
  keeps : set.KeepsMarks later

namespace Marked

variable {set s t : ClassSet} {may : Permit}

theorem refl (set : ClassSet) : set.Marked set := ⟨.refl _ set, .refl set⟩

/-- A step marks the classes that it edits. -/
theorem step (marked : set.Marked s) (evolves : Evolves may s t) (keeps : s.KeepsMarks t)
    (classes : ∀ id, set.HasClass id → may.cls id → (t.classAt id).modified = true)
    (methods : ∀ m, set.HasMethod m → may.access m ∨ may.code m →
      set.HasClass (set.methodAt m).declaredBy →
      (t.classAt (set.methodAt m).declaredBy).modified = true) : set.Marked t := by
  have still : ∀ id, set.HasClass id → (s.classAt id).modified = true →
      (t.classAt id).modified = true :=
    fun id known => keeps.modified id (marked.evolves.hasClass id known)
  have owner : ∀ m, ¬set.HasMethod m ∨ ¬set.HasClass (set.methodAt m).declaredBy ∨
      (s.classAt (set.methodAt m).declaredBy).modified = true →
      ¬set.HasMethod m ∨ ¬set.HasClass (set.methodAt m).declaredBy ∨
        (t.classAt (set.methodAt m).declaredBy).modified = true := by
    rintro m (unknown | unknown | modified)
    · exact .inl unknown
    · exact .inr (.inl unknown)
    · by_cases known : set.HasClass (set.methodAt m).declaredBy
      · exact .inr (.inr (still _ known modified))
      · exact .inr (.inl known)
  have edited : ∀ m, may.access m ∨ may.code m →
      ¬set.HasMethod m ∨ ¬set.HasClass (set.methodAt m).declaredBy ∨
        (t.classAt (set.methodAt m).declaredBy).modified = true := by
    intro m permitted
    by_cases known : set.HasMethod m
    · by_cases declared : set.HasClass (set.methodAt m).declaredBy
      · exact .inr (.inr (methods m known permitted declared))
      · exact .inr (.inl declared)
    · exact .inl known
  have before : Evolves (.marked set t) set s := by
    refine marked.evolves.mono ?_ owner owner fun _ _ _ _ => trivial
    rintro id (unknown | modified)
    · exact .inl unknown
    · by_cases known : set.HasClass id
      · exact .inr (still id known modified)
      · exact .inl known
  have after : Evolves (.marked set t) s t := by
    refine evolves.mono ?_ (fun m h => edited m (.inl h)) (fun m h => edited m (.inr h))
      fun _ _ _ _ => trivial
    intro id permitted
    by_cases known : set.HasClass id
    · exact .inr (classes id known permitted)
    · exact .inl known
  exact ⟨before.trans after, marked.keeps.trans keeps marked.evolves.hasClass⟩

/-- A class is edited and marked in one step. -/
theorem stepOf (id : ClassId) (marked : set.Marked s) (evolves : Evolves (.only id) s t)
    (keeps : s.KeepsMarks t) (modified : s.HasClass id → (t.classAt id).modified = true) :
    set.Marked t := by
  refine marked.step evolves keeps ?_ ?_
  · rintro _ known rfl
    exact modified (marked.evolves.hasClass _ known)
  · rintro m - (none | none)
    · exact none.elim
    · exact none.elim

/-- A class is edited and then marked. -/
theorem thenMark {id : ClassId} (marked : set.Marked s) (evolves : Evolves (.only id) s t)
    (keeps : s.KeepsMarks t) : set.Marked (t.mark id) := by
  refine marked.stepOf id (evolves.trans (Declaration.evolves_mark _ t id))
    (keeps.trans (.mark t id) evolves.hasClass) fun known => ?_
  exact modified_mark (evolves.hasClass id known)

/-- A method is edited, and the class that declares it is marked. -/
theorem thenMarkOwner {m : MethodId} (marked : set.Marked s)
    (evolves : Evolves (.onlyMethod m) s t) (keeps : s.KeepsMarks t) :
    set.Marked (t.mark (s.methodAt m).declaredBy) := by
  refine marked.step (evolves.trans (Declaration.evolves_mark _ t _))
    (keeps.trans (.mark t _) evolves.hasClass) (fun _ _ none => none.elim) ?_
  intro m' known permitted declared
  obtain rfl : m' = m := permitted.elim id id
  rw [(marked.evolves.signature m' known).2.2.2]
  exact modified_mark (evolves.hasClass _ (marked.evolves.hasClass _ declared))

/-- Every declaration marks the class that it edits. -/
theorem declaration {lines : List FieldLine} {drops : MethodId → Prop} (marked : set.Marked s)
    (wellFormed : s.WellFormed) (one : Declaration lines drops s t) : set.Marked t := by
  cases one with
  | addClass name kind =>
    exact marked.stepOf ⟨s.classes.size⟩ (.addClass _ s rfl rfl rfl)
      (.addClass s _) fun known => absurd known (Nat.lt_irrefl _)
  | header id f same lists source =>
    refine marked.stepOf id (.modifyHeader rfl s (fun c => (same c).1) lists) (.modifyClass s ?_ ?_)
      fun known => ?_
    · exact fun c _ => (source c).2
    · exact fun c => (source c).1
    · rw [s.classAt_modifyClass_self f known]
      exact (source _).2
  | addField id name desc =>
    exact marked.thenMark (.addField rfl s _ false) (.addField s id _ false)
  | removeField id => exact marked.thenMark (.removeField s rfl) (.removeField s id)
  | addMethod id block name desc =>
    exact marked.thenMark (.addMethod rfl s _ false) (.addMethod s id _ false)
  | removeMethod id _ =>
    refine marked.thenMark (.removeMethod s fun cls member => ⟨?_, trivial⟩) (.removeMethod s id)
    exact (wellFormed.methods cls id member).2.symm
  | rewriteAccess id block =>
    refine marked.thenMarkOwner (.modifyMethod ?_ (.inr rfl) (.inl ?_) s) (.ofClasses rfl)
    · exact fun m => ⟨rfl, rfl, rfl, rfl⟩
    · exact fun m => rfl

theorem declarations {lines : List FieldLine} {drops : MethodId → Prop} (marked : set.Marked s)
    (wellFormed : s.WellFormed) (steps : Declaration.Steps lines drops s t) : set.Marked t := by
  induction steps with
  | refl => exact marked
  | tail before one ih =>
    exact ih.declaration (Declaration.Steps.evolves before |>.wellFormed wellFormed) one

/-- A step of the body phase marks the class whose method it changes, and builds bodies of new
methods only. -/
theorem bodyEdited {s t : ApplyState} {p : PendingBody} (marked : set.Marked s.classes)
    (fresh : FreshBodies set [p]) (one : BodyEdited s p t) : set.Marked t.classes := by
  cases one with
  | idle => exact marked
  | @build id block =>
    refine marked.step (.writeBody s.classes id _) (.ofClasses rfl) (fun _ _ none => none.elim) ?_
    intro m known permitted
    obtain rfl : m = id := permitted.elim (fun h => h) (fun h => h)
    exact absurd known (fresh m block List.mem_cons_self)
  | change => exact marked.thenMarkOwner (.writeBody s.classes _ _) (.ofClasses rfl)

theorem bodiesEdited {s : ApplyState} {pending : List PendingBody} {later : ClassSet}
    (marked : set.Marked s.classes) (fresh : FreshBodies set pending)
    (steps : BodiesEdited s pending later) : set.Marked later := by
  induction steps with
  | stop => exact marked
  | step one _ ih =>
    refine ih (marked.bodyEdited (fun id block member => ?_) one) fun id block member => ?_
    · exact fresh id block (List.mem_cons.2 (.inl (List.mem_singleton.1 member)))
    · exact fresh id block (.tail _ member)

/-- Applying a script marks every class that it edits, however far it comes. -/
theorem afterApply {script : Script} {r : Resolution} (wellFormed : set.WellFormed)
    (full : set.FullAssignment script r.assignment) : set.Marked (set.afterApply script r) := by
  rcases afterApply_steps wellFormed full with
    ⟨s, e, -, declaring, same⟩ | ⟨applied, s, ran, declaring, steps⟩
  · rw [same]
    exact (refl set).declarations wellFormed declaring.steps
  · have fresh := (ApplyM.declare_pending full ran).2
    exact ((refl set).declarations wellFormed declaring.steps).bodiesEdited fresh steps

/-- A class that is not marked is as it was. -/
theorem classKept {id : ClassId} (marked : set.Marked s) (wellFormed : set.WellFormed)
    (known : set.HasClass id) (unmarked : (s.classAt id).modified = false) :
    set.ClassKept s id := by
  have notMarked : (s.classAt id).modified ≠ true := by simp [unmarked]
  refine classKept_of_forbidden wellFormed marked.evolves known ?_ fun m member => ?_
  · rintro (unknown | modified)
    · exact unknown known
    · exact notMarked modified
  · obtain ⟨has, owner⟩ := wellFormed.methods id m member
    have kept : ¬(¬set.HasMethod m ∨ ¬set.HasClass (set.methodAt m).declaredBy ∨
        (s.classAt (set.methodAt m).declaredBy).modified = true) := by
      rw [owner]
      rintro (unknown | unknown | modified)
      · exact unknown has
      · exact unknown known
      · exact notMarked modified
    exact ⟨kept, kept⟩

end Marked

/-- A class that is kept is the same class file. -/
theorem ClassKept.classFile_eq {set later : ClassSet} {id : ClassId}
    (kept : set.ClassKept later id) : later.classFile id = set.classFile id := by
  obtain ⟨header, fields, methods⟩ := kept.lists
  unfold classFile
  dsimp only
  rw [header, fields, methods]
  congr 1
  · exact List.map_congr_left kept.fieldDecls
  · exact List.map_congr_left kept.methodDecls

/-- However far a script comes, a class that is not marked as modified afterwards is as it was, with
all its members, and the bytes that are stored for it are those that were stored for it before. -/
theorem apply_keeps_unmarked {files : ClassFile → Prop}
    {scripts : ClassSet → Script → Resolution → Prop} {set : ClassSet} {script : Script}
    {o : ResolveOptions} {r : Resolution} (attained : Attained files scripts set)
    (accepted : set.resolve script {} (set.verify script) o = .ok r) :
    ∀ id, set.HasClass id → ((set.afterApply script r).classAt id).modified = false →
      set.ClassKept (set.afterApply script r) id ∧
        (set.afterApply script r).classFile id = set.classFile id ∧
        (set.afterApply script r).store id = set.store id := by
  intro id known unmarked
  have marked := Marked.afterApply attained.wellFormed (firstAccepted_of_resolve accepted).full
  have kept := marked.classKept attained.wellFormed known unmarked
  have before : (set.classAt id).modified = false := by
    cases h : (set.classAt id).modified with
    | false => rfl
    | true => exact (marked.keeps.modified id known h).symm.trans unmarked
  refine ⟨kept, kept.classFile_eq, ?_⟩
  have name := congrArg (·.name) kept.lists.1
  simp only [store, before, unmarked, marked.keeps.source id known, kept.classFile_eq]
  rw [name]

theorem apply_keeps_unmarked_subclass :
    family.ClassKept (family.afterApply (removals 1) (removed 1)) ⟨1⟩ ∧
      (family.afterApply (removals 1) (removed 1)).classFile ⟨1⟩ = family.classFile ⟨1⟩ ∧
      (family.afterApply (removals 1) (removed 1)).store ⟨1⟩ = family.store ⟨1⟩ := by
  have known : family.HasClass ⟨1⟩ := Nat.one_lt_two
  have unmarked : ((family.afterApply (removals 1) (removed 1)).classAt ⟨1⟩).modified = false := by
    with_unfolding_all decide
  exact apply_keeps_unmarked reachable_family.attained resolve_removals ⟨1⟩ known unmarked

end ClassSet

end JvmPatch
