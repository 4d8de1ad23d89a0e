import JvmPatch.Proofs.ClassSet.Growth
import JvmPatch.Proofs.ClassSet.Hierarchy
import JvmPatch.Proofs.ClassSet.Views

/-! Which method a reference means. The machine prefers a class and its superclasses, and among
superinterfaces a declaration that no more specific interface overrides. The lookup agrees with it
about classes. Among superinterfaces it takes the first declaration that a breadth-first search
meets, so it agrees where the search does not meet a declaration that is private or static, or one
that is less specific than a later one. -/

set_option autoImplicit false

namespace JvmPatch.ClassSet

variable {set : ClassSet} {name desc : String} {id : ClassId}

/-- Views are still the declared methods, as long as inheritance has not been worked out. -/
def ShowsDeclared (set : ClassSet) : Prop :=
  ∀ cls, (set.classAt cls).view = (set.classAt cls).methods

/-- No class is its own ancestor. -/
def Acyclic (set : ClassSet) : Prop :=
  ∀ id, ¬Relation.TransGen (fun cls above => set.superOf? cls = some above ∨
    above ∈ set.interfacesOf cls) id id

def DeclaresAs (set : ClassSet) (name desc : String) (id : ClassId) (m : MethodId) : Prop :=
  m ∈ (set.classAt id).methods ∧ (set.methodAt m).name = name ∧ (set.methodAt m).desc = desc

instance (set : ClassSet) (name desc : String) (id : ClassId) (m : MethodId) :
    Decidable (set.DeclaresAs name desc id m) :=
  inferInstanceAs (Decidable (m ∈ (set.classAt id).methods ∧ (set.methodAt m).name = name ∧
    (set.methodAt m).desc = desc))

/-- A class declares a method, or else the nearest superclass that declares one under its name and
descriptor. -/
inductive DeclaresNearest (set : ClassSet) (name desc : String) : ClassId → MethodId → Prop where
  | here {id : ClassId} {m : MethodId} : set.DeclaresAs name desc id m →
      DeclaresNearest set name desc id m
  | above {id above : ClassId} {m : MethodId} :
      ¬set.Declares id name desc → set.superOf? id = some above →
      DeclaresNearest set name desc above m → DeclaresNearest set name desc id m

/-- Classes that implement an interface inherit a method from it: it is neither private nor
static. -/
def IsInstance (set : ClassSet) (m : MethodId) : Prop :=
  (set.methodAt m).access.hasAny (Access.isPrivate ||| Access.isStatic) = false

instance (set : ClassSet) (m : MethodId) : Decidable (set.IsInstance m) :=
  inferInstanceAs (Decidable
    ((set.methodAt m).access.hasAny (Access.isPrivate ||| Access.isStatic) = false))

/-- An interface extends another one. -/
def MoreSpecific (set : ClassSet) (j i : ClassId) : Prop :=
  j ≠ i ∧ Relation.ReflTransGen (fun i above => above ∈ set.interfacesOf i) j i

/-- A superinterface of a class declares a method that the class can inherit. -/
structure Bequeaths (set : ClassSet) (name desc : String) (id i : ClassId)
    (m : MethodId) : Prop where
  superinterface : set.Superinterface id i
  declares : set.DeclaresAs name desc i m
  isInstance : set.IsInstance m

/-- The method that the machine selects for a reference through a class. -/
inductive Selects (set : ClassSet) (name desc : String) (id : ClassId) :
    Option MethodId → Prop where
  | declared {m : MethodId} : set.DeclaresNearest name desc id m → Selects set name desc id (some m)
  | inherited {i : ClassId} {m : MethodId} : (∀ m, ¬set.DeclaresNearest name desc id m) →
      set.Bequeaths name desc id i m →
      (∀ j other, set.MoreSpecific j i → ¬set.Bequeaths name desc id j other) →
        Selects set name desc id (some m)
  | nothing : (∀ m, ¬set.DeclaresNearest name desc id m) →
      (∀ i m, ¬set.Bequeaths name desc id i m) → Selects set name desc id none

/-- The method that the lookup finds. Of the superinterfaces the first one that declares something
counts. -/
inductive Finds (set : ClassSet) (name desc : String) (id : ClassId) : Option MethodId → Prop where
  | declared {m : MethodId} : set.DeclaresNearest name desc id m → Finds set name desc id (some m)
  | inherited {before after : List ClassId} {i : ClassId} {m : MethodId} :
      (∀ m, ¬set.DeclaresNearest name desc id m) → set.interfaceOrder id = before ++ i :: after →
      (∀ j ∈ before, ¬set.Declares j name desc) → set.DeclaresAs name desc i m →
        Finds set name desc id (some m)
  | nothing : (∀ m, ¬set.DeclaresNearest name desc id m) →
      (∀ i, set.Superinterface id i → ¬set.Declares i name desc) → Finds set name desc id none

/-- No interface comes before a more specific one that declares the method, too. -/
def SpecificFirst (set : ClassSet) (name desc : String) (order : List ClassId) : Prop :=
  order.Pairwise fun i j => set.Declares i name desc → set.Declares j name desc →
    ¬set.MoreSpecific j i

theorem DeclaresAs.declares {m : MethodId} (declares : set.DeclaresAs name desc id m) :
    set.Declares id name desc :=
  ⟨m, declares⟩

theorem declaredMethod?_eq_some {m : MethodId} (found : set.declaredMethod? name desc id = some m) :
    set.DeclaresAs name desc id m := by
  have alike := List.find?_some found
  rw [MethodEntry.hasSignature, Bool.and_eq_true, beq_iff_eq, beq_iff_eq] at alike
  exact ⟨List.mem_of_find?_eq_some found, alike⟩

theorem declaredMethod?_eq_none_iff : set.declaredMethod? name desc id = none ↔
    ¬set.Declares id name desc := by
  simp only [declaredMethod?, Declares, List.find?_eq_none, MethodEntry.hasSignature,
    Bool.and_eq_true, beq_iff_eq, not_exists, not_and]

/-- A class has a nearest declaration if it or any superclass of it declares something. -/
theorem exists_declaresNearest_iff :
    (∃ m, set.DeclaresNearest name desc id m) ↔ ∃ cls, set.AtOrAbove id cls ∧
      set.Declares cls name desc := by
  constructor
  · rintro ⟨m, nearest⟩
    induction nearest with
    | here declares => exact ⟨_, .refl, declares.declares⟩
    | above _ up _ ih =>
      obtain ⟨cls, isAbove, declares⟩ := ih
      exact ⟨cls, .head up isAbove, declares⟩
  · rintro ⟨cls, isAbove, declares⟩
    induction isAbove using Relation.ReflTransGen.head_induction_on with
    | refl => exact declares.imp fun m declares => .here declares
    | @head here above up _ ih =>
      by_cases own : set.Declares here name desc
      · exact own.imp fun m declares => .here declares
      · exact ih.imp fun m nearest => .above own up nearest

/-- The first hit of a climb is the nearest declaration. -/
theorem SuperWalk.declaresNearest {seen chain : List ClassId} {m : MethodId}
    (walk : SuperWalk set seen id chain)
    (found : chain.findSome? (set.declaredMethod? name desc) = some m) :
    set.DeclaresNearest name desc id m := by
  induction walk with
  | back => cases found
  | top =>
    obtain ⟨cls, member, isHere⟩ := List.exists_of_findSome?_eq_some found
    exact .here (List.mem_singleton.1 member ▸ declaredMethod?_eq_some isHere)
  | @up seen rest id above _ isAbove _ ih =>
    rw [List.findSome?_cons] at found
    cases isHere : set.declaredMethod? name desc id with
    | some own =>
      rw [isHere] at found
      exact .here (Option.some.inj found ▸ declaredMethod?_eq_some isHere)
    | none =>
      rw [isHere] at found
      exact .above (declaredMethod?_eq_none_iff.1 isHere) isAbove (ih found)

/-- Where no superclass declares anything, the search leaves out no superinterface that does. -/
theorem mem_interfaceOrder_of_declares (unclassed : ∀ m, ¬set.DeclaresNearest name desc id m)
    {i : ClassId} (isAbove : set.Superinterface id i) (declares : set.Declares i name desc) :
    i ∈ set.interfaceOrder id := by
  refine mem_interfaceOrder.2 ⟨isAbove, fun member => ?_⟩
  obtain ⟨m, nearest⟩ := exists_declaresNearest_iff.2 ⟨i, mem_superChain.1 member, declares⟩
  exact unclassed m nearest

theorem finds_findMethod (shown : set.ShowsDeclared) (id : ClassId) (name desc : String) :
    set.Finds name desc id (set.findMethod id name desc) := by
  have same : set.viewed? name desc = set.declaredMethod? name desc := funext fun cls => by
    rw [viewed?, shown, declaredMethod?]
  rw [findMethod, same, hierarchy_eq, List.findSome?_append]
  cases inChain : (set.superChain id).findSome? (set.declaredMethod? name desc) with
  | some m => exact .declared ((set.superWalk_superChain id).declaresNearest inChain)
  | none =>
    have unclassed (m : MethodId) (nearest : set.DeclaresNearest name desc id m) : False := by
      obtain ⟨cls, isAbove, declares⟩ := exists_declaresNearest_iff.1 ⟨m, nearest⟩
      have missing := List.findSome?_eq_none_iff.1 inChain cls (mem_superChain.2 isAbove)
      exact declaredMethod?_eq_none_iff.1 missing declares
    rw [Option.none_or]
    cases inOrder : (set.interfaceOrder id).findSome? (set.declaredMethod? name desc) with
    | some m =>
      obtain ⟨before, i, after, split, isHere, others⟩ := List.findSome?_eq_some_iff.1 inOrder
      exact .inherited unclassed split
        (fun j member => declaredMethod?_eq_none_iff.1 (others j member))
        (declaredMethod?_eq_some isHere)
    | none =>
      refine .nothing unclassed fun i isAbove declares => ?_
      have member := mem_interfaceOrder_of_declares unclassed isAbove declares
      exact declaredMethod?_eq_none_iff.1 (List.findSome?_eq_none_iff.1 inOrder i member) declares

/-- What the lookup finds in a class is selected. What it finds in an interface is, if all the
interfaces declare instance methods, and the more specific ones come first. -/
theorem Finds.selects {found : Option MethodId} (finds : set.Finds name desc id found)
    (fits : (∃ m, set.DeclaresNearest name desc id m) ∨
      (∀ i m, set.Superinterface id i → set.DeclaresAs name desc i m → set.IsInstance m) ∧
        set.SpecificFirst name desc (set.interfaceOrder id)) : set.Selects name desc id found := by
  cases finds with
  | declared nearest => exact .declared nearest
  | nothing unclassed undeclared =>
    exact .nothing unclassed fun i m bequeaths =>
      undeclared i bequeaths.superinterface bequeaths.declares.declares
  | @inherited before after i m unclassed split undeclared declares =>
    obtain ⟨own, nearest⟩ | ⟨areInstances, ordered⟩ := fits
    · exact absurd nearest (unclassed own)
    have isAbove : set.Superinterface id i := by
      refine (mem_interfaceOrder.1 ?_).1
      rw [split]
      exact List.mem_append_right _ List.mem_cons_self
    refine .inherited unclassed ⟨isAbove, declares, areInstances i m isAbove declares⟩
      fun j other specific bequeaths => ?_
    have declaresToo := bequeaths.declares.declares
    have member := mem_interfaceOrder_of_declares unclassed bequeaths.superinterface declaresToo
    rw [split, List.mem_append, List.mem_cons] at member
    rcases member with member | rfl | member
    · exact undeclared j member declaresToo
    · exact specific.1 rfl
    · rw [SpecificFirst, split, List.pairwise_append, List.pairwise_cons] at ordered
      exact ordered.2.1.1 j member declares.declares declaresToo specific

/-- As long as inheritance has not been worked out, the lookup finds the declaration in the class or
its nearest superclass that has one, otherwise the first one in a breadth-first search of the
superinterfaces, and nothing only if none of them declares anything. This is the method that the
machine selects if it is found in a class, and also if the declarations of the superinterfaces are
instance methods and no interface comes before a more specific one. -/
theorem findMethod_selects (shown : set.ShowsDeclared) (id : ClassId) (name desc : String) :
    set.Finds name desc id (set.findMethod id name desc) ∧
      ((∃ m, set.DeclaresNearest name desc id m) ∨
        (∀ i m, set.Superinterface id i → set.DeclaresAs name desc i m → set.IsInstance m) ∧
          set.SpecificFirst name desc (set.interfaceOrder id) →
        set.Selects name desc id (set.findMethod id name desc)) :=
  ⟨finds_findMethod shown id name desc, (finds_findMethod shown id name desc).selects⟩

/-! ### A class with two interfaces -/

theorem showsDeclared_ofFiles (files : List ClassFile) : (ofFiles files).ShowsDeclared := by
  refine ofFiles_rule (fun _ => rfl) (fun set file later shown inserted => ?_) files
  refine insert?_rule (P := ShowsDeclared) inserted ?_ ?_ ?_
  · intro cls
    rcases set.classAt_addClass_cases
      { file.header with hidden := false, modified := false, source := none } cls
      with same | ⟨-, new⟩
    · rw [same, shown]
    · rw [new]
  · intro u f shown cls
    rcases u.classAt_addField_cases set.nextClass f false cls with same | ⟨-, changed⟩
    · rw [same, shown]
    · rw [changed, shown]
  · intro u m _ shown cls
    rcases u.classAt_addMethod_cases set.nextClass m false cls with same | ⟨-, changed⟩
    · rw [same, shown]
    · rw [changed, shown]

def runs (name : String) (interfaces : List String) (access : List Access) : ClassFile :=
  ⟨⟨name, none, interfaces, 33, 50, 0, none⟩, [],
    access.map fun access => ⟨"run", "()V", access, [], none⟩⟩

/-- An interface, another one that extends it, and a class with both. Each of the interfaces
declares `run`. -/
def diamond (interfaces : List String) : ClassSet :=
  ofFiles [runs "p/I" [] [0x0401], runs "p/J" ["p/I"] [0x0401], runs "p/C" interfaces []]

theorem findMethod_selects_moreSpecific :
    (diamond ["p/J", "p/I"]).ShowsDeclared ∧
      (∀ i m, (diamond ["p/J", "p/I"]).Superinterface ⟨2⟩ i →
        (diamond ["p/J", "p/I"]).DeclaresAs "run" "()V" i m →
        (diamond ["p/J", "p/I"]).IsInstance m) ∧
      (diamond ["p/J", "p/I"]).SpecificFirst "run" "()V"
        ((diamond ["p/J", "p/I"]).interfaceOrder ⟨2⟩) ∧
      (diamond ["p/J", "p/I"]).Selects "run" "()V" ⟨2⟩ (some ⟨1⟩) := by
  have found : (diamond ["p/J", "p/I"]).findMethod ⟨2⟩ "run" "()V" = some ⟨1⟩ := by decide +kernel
  have order : (diamond ["p/J", "p/I"]).interfaceOrder ⟨2⟩ = [⟨1⟩, ⟨0⟩] := by decide +kernel
  have size : (diamond ["p/J", "p/I"]).methods.size = 2 := by decide +kernel
  have top : (diamond ["p/J", "p/I"]).interfacesOf ⟨0⟩ = [] := by decide +kernel
  have areInstances (m : MethodId) : (diamond ["p/J", "p/I"]).IsInstance m := by
    rcases m with ⟨_ | _ | index⟩
    · exact (by decide +kernel : (diamond ["p/J", "p/I"]).IsInstance ⟨0⟩)
    · exact (by decide +kernel : (diamond ["p/J", "p/I"]).IsInstance ⟨1⟩)
    · rw [IsInstance, methodAt, Array.getElem?_eq_none (by simp [size])]
      rfl
  have ordered : (diamond ["p/J", "p/I"]).SpecificFirst "run" "()V"
      ((diamond ["p/J", "p/I"]).interfaceOrder ⟨2⟩) := by
    rw [SpecificFirst, order, List.pairwise_pair]
    rintro - - ⟨different, extends_⟩
    rcases Relation.ReflTransGen.cases_head extends_ with same | ⟨above, named, -⟩
    · exact different same
    · rw [top] at named
      cases named
  have selects := (findMethod_selects (showsDeclared_ofFiles _) ⟨2⟩ "run" "()V").2
    (.inr ⟨fun _ m _ _ => areInstances m, ordered⟩)
  exact ⟨showsDeclared_ofFiles _, fun _ m _ _ => areInstances m, ordered, found ▸ selects⟩

/-- Each class of the diamond names earlier ones only. -/
theorem acyclic_diamond : (diamond ["p/I", "p/J"]).Acyclic := by
  have descends (cls above : ClassId) (edge : (diamond ["p/I", "p/J"]).superOf? cls = some above ∨
      above ∈ (diamond ["p/I", "p/J"]).interfacesOf cls) : above.index < cls.index := by
    have member : above ∈ ((diamond ["p/I", "p/J"]).superOf? cls).toList ++
        (diamond ["p/I", "p/J"]).interfacesOf cls := by
      rwa [List.mem_append, Option.mem_toList]
    have known : (∀ above ∈ ((diamond ["p/I", "p/J"]).superOf? ⟨0⟩).toList ++
          (diamond ["p/I", "p/J"]).interfacesOf ⟨0⟩, above.index < 0) ∧
        (∀ above ∈ ((diamond ["p/I", "p/J"]).superOf? ⟨1⟩).toList ++
          (diamond ["p/I", "p/J"]).interfacesOf ⟨1⟩, above.index < 1) ∧
        ∀ above ∈ ((diamond ["p/I", "p/J"]).superOf? ⟨2⟩).toList ++
          (diamond ["p/I", "p/J"]).interfacesOf ⟨2⟩, above.index < 2 := by decide +kernel
    rcases cls with ⟨_ | _ | _ | index⟩
    · exact known.1 above member
    · exact known.2.1 above member
    · exact known.2.2 above member
    · have size : (diamond ["p/I", "p/J"]).classes.size = 3 := by decide +kernel
      have outside : (diamond ["p/I", "p/J"]).classAt ⟨index + 3⟩ = default :=
        classAt_of_unknown (by simp [HasClass, size])
      rw [superOf?, interfacesOf, outside] at member
      cases member
  intro id cycle
  have lower (above : ClassId) (path : Relation.TransGen (fun cls above =>
      (diamond ["p/I", "p/J"]).superOf? cls = some above ∨
        above ∈ (diamond ["p/I", "p/J"]).interfacesOf cls) id above) :
      above.index < id.index := by
    induction path with
    | single edge => exact descends _ _ edge
    | tail _ edge ih => exact (descends _ _ edge).trans ih
  exact Nat.lt_irrefl _ (lower id cycle)

/-- If the class names the interface first that the other one extends, the lookup finds the
declaration that is overridden. -/
theorem findMethod_misses_override :
    ∃ set : ClassSet, set.Acyclic ∧ set.ShowsDeclared ∧ ∃ id name desc,
      ¬set.Selects name desc id (set.findMethod id name desc) := by
  have found : (diamond ["p/I", "p/J"]).findMethod ⟨2⟩ "run" "()V" = some ⟨0⟩ := by decide +kernel
  have extends_ : (⟨0⟩ : ClassId) ∈ (diamond ["p/I", "p/J"]).interfacesOf ⟨1⟩ := by decide +kernel
  have named : (⟨1⟩ : ClassId) ∈ (diamond ["p/I", "p/J"]).interfacesOf ⟨2⟩ := by decide +kernel
  have overrides : (diamond ["p/I", "p/J"]).Bequeaths "run" "()V" ⟨2⟩ ⟨1⟩ ⟨1⟩ :=
    ⟨.direct .refl named, by decide +kernel, by decide +kernel⟩
  refine ⟨diamond ["p/I", "p/J"], acyclic_diamond, showsDeclared_ofFiles _, ⟨2⟩, "run", "()V",
    fun selects => ?_⟩
  rw [found] at selects
  cases selects with
  | declared nearest =>
    obtain ⟨cls, isAbove, m, member, -⟩ := exists_declaresNearest_iff.1 ⟨_, nearest⟩
    have alone : (diamond ["p/I", "p/J"]).superChain ⟨2⟩ = [⟨2⟩] := by decide +kernel
    have none : ((diamond ["p/I", "p/J"]).classAt ⟨2⟩).methods = [] := by decide +kernel
    rw [← mem_superChain, alone, List.mem_singleton] at isAbove
    rw [isAbove, none] at member
    cases member
  | @inherited i _ _ bequeaths specific =>
    have declarer := ((wellFormed_ofFiles _).methods i _ bequeaths.declares.1).2
    have isFirst : ((diamond ["p/I", "p/J"]).methodAt ⟨0⟩).declaredBy = ⟨0⟩ := by decide +kernel
    obtain rfl : i = ⟨0⟩ := declarer.symm.trans isFirst
    exact specific ⟨1⟩ ⟨1⟩ ⟨by decide, .single extends_⟩ overrides

end JvmPatch.ClassSet
