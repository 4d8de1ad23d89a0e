import JvmPatch.Proofs.ClassSet.Intake

/-! What classes show and what they declare. A view starts as the list of the declared methods, and
an override is shown in the place of a method with its signature. So a view has, place by place, the
signatures of the declared methods, and methods with other signatures never come in. -/

set_option autoImplicit false

namespace JvmPatch.ClassSet

def signature (set : ClassSet) (m : MethodId) : String × String :=
  ((set.methodAt m).name, (set.methodAt m).desc)

def fieldSignature (set : ClassSet) (f : FieldId) : String × String :=
  ((set.fieldAt f).name, (set.fieldAt f).desc)

/-- A method is shown in the place of a declared one. Some methods are shown in their own place
only, and nothing else is shown there. -/
structure ShownFor (set : ClassSet) (own : MethodId → Prop) (shown declared : MethodId) : Prop where
  known : set.HasMethod shown
  declaredKnown : set.HasMethod declared
  signature : set.signature shown = set.signature declared
  own : own shown ∨ own declared → shown = declared

/-- All classes show, place by place, methods for those that they declare. -/
def Aligned (set : ClassSet) (own : MethodId → Prop) : Prop :=
  ∀ cls, List.Forall₂ (set.ShownFor own) (set.classAt cls).view (set.classAt cls).methods

abbrev NoMethod : MethodId → Prop := fun _ => False

/-- Known methods keep their signatures. -/
structure KeepsSignatures (set later : ClassSet) : Prop where
  hasMethod : ∀ m, set.HasMethod m → later.HasMethod m
  signature : ∀ m, set.HasMethod m → later.signature m = set.signature m

variable {set later : ClassSet} {own own' : MethodId → Prop}

theorem Evolves.keepsSignatures {may : Permit} (evolves : Evolves may set later) :
    KeepsSignatures set later :=
  ⟨evolves.hasMethod, fun m known => by
    obtain ⟨name, desc, -⟩ := evolves.signature m known
    rw [ClassSet.signature, ClassSet.signature, name, desc]⟩

theorem KeepsSignatures.ofMethods (same : later.methods = set.methods) :
    KeepsSignatures set later :=
  ⟨fun m known => by rwa [HasMethod, same],
    fun m _ => by rw [ClassSet.signature, methodAt, same]; rfl⟩

theorem ShownFor.carry {v m : MethodId} (shown : set.ShownFor own v m)
    (keeps : KeepsSignatures set later) :
    later.ShownFor own v m where
  known := keeps.hasMethod v shown.known
  declaredKnown := keeps.hasMethod m shown.declaredKnown
  signature := by
    rw [keeps.signature v shown.known, keeps.signature m shown.declaredKnown, shown.signature]
  own := shown.own

/-- A list that is empty in an added class and where no class is known is as it was everywhere. -/
theorem list_addClass {α : Type} (part : ClassEntry → List α) {c : ClassEntry} (none : part c = [])
    (initial : part default = []) (cls : ClassId) :
    part ((set.addClass c).classAt cls) = part (set.classAt cls) := by
  by_cases known : set.HasClass cls
  · rw [set.classAt_addClass_of_known c known]
  · have unknown : part (set.classAt cls) = [] := by
      rw [classAt, Array.getElem?_eq_none (Nat.le_of_not_lt known)]
      exact initial
    rw [unknown, classAt, ClassSet.addClass, Array.getElem?_push]
    split
    · exact none
    · rw [Array.getElem?_eq_none (Nat.le_of_not_lt known)]
      exact initial

namespace Aligned

theorem empty (own : MethodId → Prop) (classpath : Classpath) :
    Aligned { classpath := classpath } own := fun _ => .nil

theorem mono (aligned : set.Aligned own) (fewer : ∀ m, own' m → own m) : set.Aligned own' :=
  fun cls =>
  (aligned cls).imp fun _ _ shown =>
    { shown with own := fun is => shown.own (is.imp (fewer _) (fewer _)) }

/-- Methods that are shown exactly where they are declared are shown in their own places. -/
theorem of_places (aligned : set.Aligned own)
    (places : ∀ m, own' m → ∀ (cls : ClassId) (place : Nat),
      (set.classAt cls).view[place]? = some m ↔ (set.classAt cls).methods[place]? = some m) :
    set.Aligned own' := by
  intro cls
  have shows := aligned cls
  have same (m : MethodId) (is : own' m) := places m is cls
  revert shows same
  generalize (set.classAt cls).view = view, (set.classAt cls).methods = methods
  intro shows same
  induction shows with
  | nil => exact .nil
  | @cons v d _ _ one _ ih =>
    refine .cons { one with own := fun is => ?_ } (ih fun m is place => same m is (place + 1))
    rcases is with is | is
    · exact (Option.some.inj ((same v is 0).1 rfl)).symm
    · exact Option.some.inj ((same d is 0).2 rfl)

/-- The signatures of a view are those of the declared methods, in order. -/
theorem map_signature (aligned : set.Aligned own) (cls : ClassId) :
    (set.classAt cls).view.map set.signature = (set.classAt cls).methods.map set.signature := by
  have places := aligned cls
  generalize (set.classAt cls).view = view, (set.classAt cls).methods = methods at places
  induction places with
  | nil => rfl
  | cons shown _ ih => rw [List.map_cons, List.map_cons, shown.signature, ih]

/-- Nothing that counts has changed in any list. -/
theorem sameLists (aligned : set.Aligned own) (keeps : KeepsSignatures set later)
    (view : ∀ cls, (later.classAt cls).view = (set.classAt cls).view)
    (methods : ∀ cls, (later.classAt cls).methods = (set.classAt cls).methods) :
    later.Aligned own := by
  intro cls
  rw [view, methods]
  exact (aligned cls).imp fun _ _ shown => shown.carry keeps

theorem ofClasses (aligned : set.Aligned own) (keeps : KeepsSignatures set later)
    (same : later.classes = set.classes) : later.Aligned own :=
  aligned.sameLists keeps (fun cls => by rw [classAt, same]; rfl) fun cls => by
    rw [classAt, same]; rfl

/-- The lists of one class are replaced. -/
theorem modifyClass (aligned : set.Aligned own) {id : ClassId} {f : ClassEntry → ClassEntry}
    (places : List.Forall₂ (set.ShownFor own) (f (set.classAt id)).view
      (f (set.classAt id)).methods) :
    (set.modifyClass id f).Aligned own := by
  have keeps : KeepsSignatures set (set.modifyClass id f) := .ofMethods rfl
  intro cls
  rcases Evolves.classAt_modifyClass_cases set id f cls with same | ⟨rfl, changed⟩
  · rw [same]
    exact (aligned cls).imp fun _ _ shown => shown.carry keeps
  · rw [changed]
    exact places.imp fun _ _ shown => shown.carry keeps

theorem addClass (aligned : set.Aligned own) {c : ClassEntry} (view : c.view = [])
    (methods : c.methods = []) :
    (set.addClass c).Aligned own :=
  aligned.sameLists (.ofMethods rfl) (list_addClass (·.view) view rfl)
    (list_addClass (·.methods) methods rfl)

/-- A modification of a method that keeps its signature. -/
theorem modifyMethod (aligned : set.Aligned own) (id : MethodId) {f : MethodEntry → MethodEntry}
    (same : ∀ m, ((f m).name, (f m).desc) = (m.name, m.desc)) :
    (set.modifyMethod id f).Aligned own :=
  aligned.ofClasses ⟨fun m known => (set.hasMethod_modifyMethod id m f).2 known, fun m _ =>
    set.methodAt_modifyMethod_same (fun e => (e.name, e.desc)) same id m⟩ rfl

theorem addField (aligned : set.Aligned own) (id : ClassId) (f : FieldDecl) (hidden : Bool) :
    (set.addField id f hidden).Aligned own :=
  let added : ClassSet :=
    { set with
      fields := set.fields.push { f with declaredBy := id, owners := [id], hidden := hidden } }
  have pushed : added.Aligned own := aligned.ofClasses (.ofMethods rfl) rfl
  pushed.modifyClass (f := fun c => { c with fields := c.fields ++ [set.nextField] }) (pushed id)

/-- An added method comes last both in the view and among the declared methods. -/
theorem addMethod (aligned : set.Aligned own) (id : ClassId) (m : MethodDecl) (hidden : Bool) :
    (set.addMethod id m hidden).Aligned own := by
  let added : ClassSet :=
    { set with
      methods := set.methods.push { m with declaredBy := id, owners := [id], hidden := hidden } }
  have pushed : added.Aligned own :=
    aligned.ofClasses (Evolves.pushMethod .everything set _).keepsSignatures rfl
  have isNew : added.HasMethod set.nextMethod := by simp [HasMethod, added, nextMethod]
  exact pushed.modifyClass
    (List.rel_append (pushed id) (.cons ⟨isNew, isNew, rfl, fun _ => rfl⟩ .nil))

/-- A method is shown in the place of one with its signature. -/
theorem display (aligned : set.Aligned own) {id : ClassId} {m replaced : MethodId} {place : Nat}
    (known : set.HasMethod m) (shown : (set.classAt id).view[place]? = some replaced)
    (signature : set.signature replaced = set.signature m) (free : ¬own m ∧ ¬own replaced) :
    (set.modifyClass id fun c => { c with view := c.view.set place m }).Aligned own := by
  refine aligned.modifyClass ?_
  have places := aligned id
  revert places shown
  generalize (set.classAt id).view = view, (set.classAt id).methods = methods
  intro shown places
  induction places generalizing place with
  | nil => cases shown
  | @cons v d _ _ one rest ih =>
    cases place with
    | zero =>
      obtain rfl := Option.some.inj shown
      refine .cons ⟨known, one.declaredKnown, signature.symm.trans one.signature, fun is => ?_⟩ rest
      rcases is with is | is
      · exact absurd is free.1
      · exact absurd (one.own (.inr is) ▸ is) free.2
    | succ place => exact .cons one (ih shown)

/-- A method leaves all lists at once. -/
theorem removeMethod (aligned : set.Aligned own) {m : MethodId} (isOwn : own m) :
    (set.removeMethod m).Aligned own := by
  have evolves : Evolves .everything set (set.removeMethod m) :=
    .removeMethod set fun _ _ => ⟨trivial, trivial⟩
  intro cls
  rw [set.classAt_removeMethod]
  refine List.rel_filter (R := (set.removeMethod m).ShownFor own) ?_
    ((aligned cls).imp fun _ _ shown => shown.carry evolves.keepsSignatures)
  intro v d shown
  have together : v = m ↔ d = m :=
    ⟨fun same => (shown.own (.inl (same ▸ isOwn))).symm.trans same,
      fun same => (shown.own (.inr (same ▸ isOwn))).trans same⟩
  simp only [bne_iff_ne, ne_eq, together]

theorem insert? (aligned : set.Aligned own) {file : ClassFile} {source : Option Bytes}
    {hidden : Bool} (inserted : set.insert? file source hidden = some later) : later.Aligned own :=
  insert?_rule (P := fun u => u.Aligned own) inserted (aligned.addClass rfl rfl)
    (fun _ f h => h.addField _ f hidden) fun _ m _ h => h.addMethod _ m hidden

/-- Taking classes in and working out inheritance keep views aligned. -/
theorem intake (aligned : set.Aligned NoMethod) (steps : Intake.Steps set later) :
    later.Aligned NoMethod := by
  induction steps with
  | refl => exact aligned
  | @tail s t _ step ih =>
    cases step with
    | file _ inserted => exact ih.insert? inserted
    | stub name => exact ih.addClass rfl rfl
    | display known shown signature =>
      obtain ⟨name, desc⟩ := Bool.and_eq_true_iff.1 signature
      exact ih.display known shown (Prod.ext (eq_of_beq name) (eq_of_beq desc)) ⟨id, id⟩
    | inherit m owners => exact ih.modifyMethod m fun _ => rfl
    | inheritField f owners => exact ih.ofClasses (.ofMethods rfl) rfl

end Aligned

end JvmPatch.ClassSet
