import JvmPatch.Proofs.ClassSet.Growth
import Mathlib.Logic.Relation

/-! The steps in which classes come in and inheritance is worked out. None of them touches the
declaration of a method, and a new method comes from a class file that has been read. -/

set_option autoImplicit false

namespace JvmPatch

namespace ClassSet

/-- What happens to a class set in one step of taking classes in or working out inheritance. -/
inductive Intake (set : ClassSet) : ClassSet → Prop where
  | file {bytes : Bytes} {file : ClassFile} {later : ClassSet} : ClassFile.read bytes = .ok file →
      set.insert? file none true = some later → Intake set later
  | stub (name : String) : Intake set (set.addClass (.stub name))
  /-- A class shows a method in place of one with its signature. -/
  | display {id : ClassId} {m replaced : MethodId} {place : Nat} : set.HasMethod m →
      (set.classAt id).view[place]? = some replaced →
      (set.methodAt replaced).hasSignature (set.methodAt m).name (set.methodAt m).desc = true →
      Intake set (set.modifyClass id fun c => { c with view := c.view.set place m })
  | inherit (id : MethodId) (owners : MethodEntry → List ClassId) :
      Intake set (set.modifyMethod id fun m => { m with owners := owners m })
  | inheritField (id : FieldId) (owners : FieldEntry → List ClassId) :
      Intake set (set.modifyField id fun f => { f with owners := owners f })

namespace Intake

variable {base set : ClassSet}

/-- What steps of this kind lead to. -/
abbrev Steps : ClassSet → ClassSet → Prop := Relation.ReflTransGen Intake

theorem showOverride {m : MethodId} (known : set.HasMethod m) (id : ClassId) :
    Steps set (showOverride m id set) := by
  unfold ClassSet.showOverride
  dsimp only
  split
  · exact .refl
  rename_i place found
  split
  · exact .refl
  rename_i replaced shown
  split
  · exact .refl
  refine (Relation.ReflTransGen.single (.inherit m _)).tail
    (.display ((set.hasMethod_modifyMethod m m _).2 known) shown ?_)
  obtain ⟨inside, overridden, -⟩ := List.findIdx?_eq_some_iff_getElem.1 found
  rw [(List.getElem?_eq_some_iff.1 shown).2, Bool.and_eq_true] at overridden
  have declared (owners : MethodEntry → List ClassId) (n : MethodId) :
      ((set.modifyMethod m fun e => { e with owners := owners e }).methodAt n).toMethodDecl =
        (set.methodAt n).toMethodDecl :=
    set.methodAt_modifyMethod_same (·.toMethodDecl)
      (f := fun e => { e with owners := owners e }) (fun _ => rfl) m n
  unfold MethodEntry.hasSignature at overridden ⊢
  rw [declared, declared]
  exact overridden.1

theorem foldl {α : Type} {f : ClassSet → α → ClassSet} (each : ∀ set x, Steps set (f set x))
    (xs : List α) (set : ClassSet) : Steps set (xs.foldl f set) := by
  induction xs generalizing set with
  | nil => exact .refl
  | cons x xs ih => exact (each set x).trans (ih _)

theorem inheritMembers (heir id : ClassId) (set : ClassSet) :
    Steps set (inheritMembers heir id set) := by
  refine (foldl ?_ _ set).trans (foldl ?_ _ _)
  · exact fun set f => .single (.inheritField f _)
  · exact fun set m => .single (.inherit m _)

theorem load (name : String) : Preserves (Steps base) (load name) := by
  refine .ofGet fun set steps => ?_
  cases found : set.find? name with
  | some id => exact steps
  | none =>
    dsimp only
    match provided : set.onClasspath? name with
    | .error _ | .ok none => exact steps
    | .ok (some taken) =>
      dsimp only
      split
      · cases inserted : set.insert? taken none true with
        | none => exact steps
        | some later =>
          obtain ⟨bytes, -, isRead⟩ := exists_lookup_of_onClasspath? provided
          exact steps.tail (.file isRead inserted)
      · exact steps

theorem loadAncestor (origin : ClassId) (name : String) :
    Preserves (Steps base) (loadAncestor origin name) := by
  refine (load name).bind fun found => ?_
  split
  · exact .pure _ _
  · split
    · exact .pure _ _
    · exact .ofGet fun _ steps => steps

/-- What holds of a class set and after all steps from it, holds of what a program with such steps
leaves. -/
theorem preserves {α : Type} {m : ClassSetM α} (takes : ∀ base, Preserves (Steps base) m)
    {P : ClassSet → Prop} (closed : ∀ s t, Steps s t → P s → P t) : Preserves P m :=
  preserves_iff.2 fun s holds => closed s _ (preserves_iff.1 (takes s) s .refl) holds

theorem hasMethod {later : ClassSet} (step : Intake set later) {m : MethodId}
    (known : set.HasMethod m) :
    later.HasMethod m := by
  cases step with
  | file _ inserted => exact (evolves_insert? inserted).hasMethod m known
  | stub name => exact known
  | display => exact known
  | inherit id => exact (set.hasMethod_modifyMethod id m _).2 known
  | inheritField => exact known

theorem Steps.hasMethod {later : ClassSet} (steps : Steps set later) {m : MethodId}
    (known : set.HasMethod m) :
    later.HasMethod m := by
  induction steps with
  | refl => exact known
  | tail _ step ih => exact step.hasMethod ih

/-- What walking over ancestors keeps if loading and the step at each of them keep it. -/
theorem forAncestors {P : ClassSet → Prop} {step : ClassId → ClassSet → ClassSet}
    (closed : ∀ s t, Steps s t → P s → P t) (each : ∀ id set, P set → P (step id set))
    (origin : ClassId) (fuel : Nat) (entered names : List String) :
    Preserves P (forAncestors step origin fuel entered names) := by
  induction fuel generalizing entered names with
  | zero => exact .pure _ _
  | succ fuel ih =>
    refine .foldlM (fun entered name _ => ?_) _
    split
    · exact .pure _ _
    · refine (preserves (fun _ => loadAncestor origin name) closed).bind fun found => ?_
      split
      · exact .pure _ _
      · exact (Preserves.modify (each _)).bind fun _ =>
          .ofGet fun set holds => preserves_iff.1 (ih _ _) set holds

theorem known_of_inheritable {id : ClassId} {m : MethodId}
    (member : m ∈ set.inheritableMethods id) :
    set.HasMethod m := by
  have visible := (Bool.and_eq_true_iff.1 (List.mem_filter.1 member).2).1
  refine Nat.lt_of_not_le fun outside => ?_
  rw [methodAt, Array.getElem?_eq_none outside] at visible
  cases visible

theorem showOverrides (id : ClassId) : Preserves (Steps base) (showOverrides id) := by
  refine .ofGet fun set steps => ?_
  have reached : Preserves (fun t => Steps base t ∧ Steps set t)
      ((set.inheritableMethods id).forM fun m => do
        let set ← get
        let _ ← ClassSet.forAncestors (ClassSet.showOverride m) id set.depthBound []
            (set.classAt id).supertypes) := by
    refine .forM fun m member => .ofGet fun u both => ?_
    have each (fuel : Nat) (names : List String) := forAncestors
      (P := fun t => Steps base t ∧ Steps set t)
      (fun s t more both => ⟨both.1.trans more, both.2.trans more⟩) (fun cls t both =>
        have shows := showOverride (both.2.hasMethod (known_of_inheritable member)) cls
        ⟨both.1.trans shows, both.2.trans shows⟩) id fuel [] names
    exact preserves_iff.1 ((each _ _).bind fun _ => .pure _ _) u both
  exact (preserves_iff.1 reached set ⟨steps, .refl⟩).1

theorem inheritAll (id : ClassId) : Preserves (Steps base) (inheritAll id) := by
  refine (Preserves.modify fun set steps => steps.trans (inheritMembers id id set)).bind fun _ => ?_
  refine .ofGet fun set steps => preserves_iff.1 (Preserves.bind ?_ fun _ => .pure _ _) set steps
  exact forAncestors (fun _ _ more steps => steps.trans more)
    (fun cls set steps => steps.trans (inheritMembers id cls set)) _ _ _ _

theorem shareInherited : Preserves (Steps base) shareInherited := by
  refine .ofGet fun set steps => preserves_iff.1 ?_ set steps
  exact (Preserves.forM fun id _ => showOverrides id).bind fun _ => .forM fun id _ => inheritAll id

theorem loadOrStub (name : String) : Preserves (Steps base) (loadOrStub name) := by
  refine .ofGet fun set steps => ?_
  split
  · exact steps
  · refine preserves_iff.1 ((load name).bind fun found => ?_) set steps
    split
    · exact .ofGet fun _ steps => steps
    · exact (Preserves.modify fun set steps => steps.tail (.stub name)).bind fun _ => .pure _ _

theorem loadLevel (names : List String) : Preserves (Steps base) (loadLevel names) := by
  induction names with
  | nil => exact .pure _ _
  | cons name names ih => exact (loadOrStub name).bind fun _ => ih.bind fun _ => .pure _ _

theorem loadLevels (fuel : Nat) (names : List String) :
    Preserves (Steps base) (loadLevels fuel names) := by
  induction fuel generalizing names with
  | zero => exact .pure _ _
  | succ fuel ih => exact (loadLevel names).bind fun next => ih next

theorem loadMentioned : Preserves (Steps base) loadMentioned :=
  .ofGet fun set steps => preserves_iff.1 (loadLevels _ _) set steps

end Intake

/-- Something holds of every method, those included that no class lists any more. -/
def AllMethods (Q : MethodEntry → Prop) (set : ClassSet) : Prop :=
  ∀ m, set.HasMethod m → Q (set.methodAt m)

namespace AllMethods

variable {Q Q' : MethodEntry → Prop} {set later : ClassSet}

theorem empty (Q : MethodEntry → Prop) (classpath : Classpath) :
    AllMethods Q { classpath := classpath } := fun _ has => absurd has (Nat.not_lt_zero _)

theorem mono (all : AllMethods Q set) (more : ∀ m, Q m → Q' m) : AllMethods Q' set :=
  fun m has => more _ (all m has)

theorem ofMethods (all : AllMethods Q set) (same : later.methods = set.methods) :
    AllMethods Q later := by
  intro m has
  rw [HasMethod, same] at has
  rw [methodAt, same]
  exact all m has

theorem push {entry : MethodEntry} (all : AllMethods Q set) (new : Q entry) :
    AllMethods Q { set with methods := set.methods.push entry } := by
  intro m has
  by_cases old : set.HasMethod m
  · have kept := all m old
    simp only [methodAt] at kept ⊢
    rwa [Array.getElem?_push_lt old, ← Array.getElem?_eq_getElem old]
  · have last : m.index = set.methods.size := by
      simp only [HasMethod, Array.size_push] at has old
      omega
    simp only [methodAt, last, Array.getElem?_push_size, Option.getD_some]
    exact new

theorem addMethod {id : ClassId} {m : MethodDecl} {hidden : Bool} (all : AllMethods Q set)
    (new : Q { m with declaredBy := id, owners := [id], hidden := hidden }) :
    AllMethods Q (set.addMethod id m hidden) :=
  (all.push new).ofMethods rfl

theorem modifyMethod {f : MethodEntry → MethodEntry} (all : AllMethods Q set)
    (keeps : ∀ m, Q m → Q (f m)) (id : MethodId) : AllMethods Q (set.modifyMethod id f) := by
  intro m has
  have known := (set.hasMethod_modifyMethod id m f).1 has
  by_cases same : m = id
  · subst same
    rw [set.methodAt_modifyMethod_self f known]
    exact keeps _ (all m known)
  · rw [set.methodAt_modifyMethod_of_ne f same]
    exact all m known

theorem insert? {file : ClassFile} {source : Option Bytes} {hidden : Bool} (all : AllMethods Q set)
    (inserted : set.insert? file source hidden = some later)
    (new : ∀ m ∈ file.methods,
      Q { m with declaredBy := set.nextClass, owners := [set.nextClass], hidden := hidden }) :
    AllMethods Q later :=
  insert?_rule inserted (all.ofMethods rfl) (fun _ _ h => h.ofMethods rfl)
    fun _ m member h => h.addMethod (new m member)

/-- Something that does not depend on owners holds of all methods if it holds of those in class
files. -/
theorem intake (all : AllMethods Q set) (step : Intake set later)
    (owners : ∀ m owners, Q m → Q { m with owners := owners })
    (new : ∀ bytes file, ClassFile.read bytes = .ok file → ∀ m ∈ file.methods,
      Q { m with declaredBy := set.nextClass, owners := [set.nextClass], hidden := true }) :
    AllMethods Q later := by
  cases step with
  | file read inserted => exact all.insert? inserted (new _ _ read)
  | stub name => exact all.ofMethods rfl
  | display => exact all.ofMethods rfl
  | inherit id f => exact all.modifyMethod (fun m h => owners m _ h) id
  | inheritField id f => exact all.ofMethods rfl

end AllMethods

def MethodsDeclared (set : ClassSet) : Prop := AllMethods (fun m => set.HasClass m.declaredBy) set

theorem MethodsDeclared.later {set later : ClassSet} (declared : set.MethodsDeclared)
    (grown : ∀ id, set.HasClass id → later.HasClass id) :
    AllMethods (fun m => later.HasClass m.declaredBy) set :=
  declared.mono fun _ h => grown _ h

theorem hasClass_insert? {set later : ClassSet} {file : ClassFile} {source : Option Bytes}
    {hidden : Bool} (inserted : set.insert? file source hidden = some later) :
    later.HasClass set.nextClass := by
  have evolves : (∀ u f, Evolves .everything u (u.addField set.nextClass f hidden)) ∧
      ∀ u m, Evolves .everything u (u.addMethod set.nextClass m hidden) :=
    ⟨fun u f => .addField trivial u f hidden, fun u m => .addMethod trivial u m hidden⟩
  refine insert?_rule inserted ?_
    (fun u f known => (evolves.1 u f).hasClass _ known)
    fun u m _ known => (evolves.2 u m).hasClass _ known
  simp [HasClass, addClass, nextClass]

theorem MethodsDeclared.insert? {set later : ClassSet} {file : ClassFile} {source : Option Bytes}
    {hidden : Bool} (declared : set.MethodsDeclared)
    (inserted : set.insert? file source hidden = some later) : later.MethodsDeclared := by
  have grown := (evolves_insert? inserted).hasClass
  exact (declared.later grown).insert? inserted fun _ _ => hasClass_insert? inserted

theorem MethodsDeclared.intake {set later : ClassSet} (declared : set.MethodsDeclared)
    (steps : Intake.Steps set later) : later.MethodsDeclared := by
  induction steps with
  | refl => exact declared
  | @tail s t _ step ih =>
    cases step with
    | file _ inserted => exact ih.insert? inserted
    | stub name => exact (ih.later fun id => s.hasClass_addClass _).ofMethods rfl
    | @display id =>
      exact (ih.later fun other => (s.hasClass_modifyClass id other _).2).ofMethods rfl
    | inherit id f =>
      have kept : AllMethods (fun m => s.HasClass m.declaredBy) s := ih
      exact kept.modifyMethod (f := fun m => { m with owners := f m }) (fun _ h => h) id
    | inheritField id f => exact AllMethods.ofMethods ih rfl

end ClassSet

end JvmPatch
