import JvmPatch.ClassSet.Loading
import JvmPatch.Proofs.ClassSet.Growth
import JvmPatch.Proofs.Resolve.Completeness
import Mathlib.Data.List.Nodup
import Mathlib.Logic.Equiv.Defs

/-! Class sets that differ in the numbers of their classes, methods and fields only. A renumbering
leaves the numbers alone that are not in use, so what comes in later gets one number in both sets.
What is looked up in one set is what is looked up in the other under another number. -/

set_option autoImplicit false

namespace JvmPatch

/-- Other numbers for classes, methods and fields. -/
structure Renumbering where
  cls : Equiv.Perm ClassId
  method : Equiv.Perm MethodId
  field : Equiv.Perm FieldId

def ClassEntry.renumber (c : ClassEntry) (ρ : Renumbering) : ClassEntry :=
  { c with
    fields := c.fields.map ρ.field, methods := c.methods.map ρ.method, view := c.view.map ρ.method }

/-- Two methods differ in the numbers of classes only. The class that declares them is left open. -/
structure MethodEntry.Alike (ρ : Renumbering) (m n : MethodEntry) : Prop where
  decl : n.toMethodDecl = m.toMethodDecl
  hidden : n.hidden = m.hidden
  owners : ∀ o, ρ.cls o ∈ n.owners ↔ o ∈ m.owners

/-- Two fields differ in the numbers of classes only. The class that declares them is left open. -/
structure FieldEntry.Alike (ρ : Renumbering) (f g : FieldEntry) : Prop where
  decl : g.toFieldDecl = f.toFieldDecl
  hidden : g.hidden = f.hidden
  owners : ∀ o, ρ.cls o ∈ g.owners ↔ o ∈ f.owners

namespace ClassSet

/-- No two classes have one name. -/
def NamesApart (set : ClassSet) : Prop :=
  ∀ id id', set.HasClass id → set.HasClass id' →
    (set.classAt id).name = (set.classAt id').name → id = id'

/-- Two class sets differ in numbers only, and those that are not in use are the same. -/
structure Renumbered (ρ : Renumbering) (set other : ClassSet) : Prop where
  classpath : other.classpath = set.classpath
  classCount : other.classes.size = set.classes.size
  methodCount : other.methods.size = set.methods.size
  fieldCount : other.fields.size = set.fields.size
  unusedClass : ∀ id, ¬set.HasClass id → ρ.cls id = id
  unusedMethod : ∀ m, ¬set.HasMethod m → ρ.method m = m
  unusedField : ∀ f, ¬set.HasField f → ρ.field f = f
  classAt : ∀ id, other.classAt (ρ.cls id) = (set.classAt id).renumber ρ
  methodAt : ∀ m, (set.methodAt m).Alike ρ (other.methodAt (ρ.method m))
  fieldAt : ∀ f, (set.fieldAt f).Alike ρ (other.fieldAt (ρ.field f))
  methodDeclaredBy : ∀ m, set.HasMethod m →
    (other.methodAt (ρ.method m)).declaredBy = ρ.cls (set.methodAt m).declaredBy
  fieldDeclaredBy : ∀ f, set.HasField f →
    (other.fieldAt (ρ.field f)).declaredBy = ρ.cls (set.fieldAt f).declaredBy
  apart : set.NamesApart
  formed : set.WellFormed

theorem find?_eq_some_iff {set : ClassSet} (apart : set.NamesApart) {name : String} {id : ClassId} :
    set.find? name = some id ↔ set.HasClass id ∧ (set.classAt id).name = name := by
  refine ⟨find?_eq_some, ?_⟩
  rintro ⟨known, rfl⟩
  cases found : set.find? (set.classAt id).name with
  | some id' =>
    obtain ⟨known', same⟩ := find?_eq_some found
    rw [apart id' id known' known same]
  | none =>
    rw [find?, Option.map_eq_none_iff, Array.findIdx?_eq_none_iff] at found
    have absent := found _ (Array.getElem_mem known)
    simp [classAt, Array.getElem?_eq_getElem known] at absent

/-- What a permutation leaves alone outside of a property keeps the property. -/
theorem perm_iff {α : Type} {p : Equiv.Perm α} {known : α → Prop}
    (unused : ∀ x, ¬known x → p x = x) (x : α) :
    known (p x) ↔ known x := by
  constructor
  · intro has
    by_contra unknown
    exact unknown (unused x unknown ▸ has)
  · intro has
    by_contra unknown
    have same : p x = x := p.injective (unused (p x) unknown)
    exact unknown (same.symm ▸ has)

namespace Renumbered

variable {ρ : Renumbering} {set other : ClassSet}

section Reading

variable (same : Renumbered ρ set other)
include same

theorem hasClass_iff (id : ClassId) : other.HasClass (ρ.cls id) ↔ set.HasClass id := by
  rw [← perm_iff same.unusedClass id, HasClass, HasClass, same.classCount]

theorem hasMethod_iff (m : MethodId) : other.HasMethod (ρ.method m) ↔ set.HasMethod m := by
  rw [← perm_iff same.unusedMethod m, HasMethod, HasMethod, same.methodCount]

theorem hasField_iff (f : FieldId) : other.HasField (ρ.field f) ↔ set.HasField f := by
  rw [← perm_iff same.unusedField f, HasField, HasField, same.fieldCount]

theorem nextClass : ρ.cls set.nextClass = other.nextClass := by
  rw [same.unusedClass set.nextClass (Nat.lt_irrefl _), ClassSet.nextClass, ClassSet.nextClass,
    same.classCount]

theorem nextMethod : ρ.method set.nextMethod = other.nextMethod := by
  rw [same.unusedMethod set.nextMethod (Nat.lt_irrefl _), ClassSet.nextMethod, ClassSet.nextMethod,
    same.methodCount]

theorem nextField : ρ.field set.nextField = other.nextField := by
  rw [same.unusedField set.nextField (Nat.lt_irrefl _), ClassSet.nextField, ClassSet.nextField,
    same.fieldCount]

theorem header (id : ClassId) :
    (other.classAt (ρ.cls id)).toClassHeader = (set.classAt id).toClassHeader := by
  rw [same.classAt]
  rfl

theorem name (id : ClassId) : (other.classAt (ρ.cls id)).name = (set.classAt id).name :=
  congrArg (·.name) (same.header id)

theorem supertypes (id : ClassId) :
    (other.classAt (ρ.cls id)).supertypes = (set.classAt id).supertypes :=
  congrArg (·.supertypes) (same.header id)

theorem methodName (m : MethodId) : (other.methodAt (ρ.method m)).name = (set.methodAt m).name :=
  congrArg (·.name) (same.methodAt m).decl

theorem methodDesc (m : MethodId) : (other.methodAt (ρ.method m)).desc = (set.methodAt m).desc :=
  congrArg (·.desc) (same.methodAt m).decl

theorem methodAccess (m : MethodId) :
    (other.methodAt (ρ.method m)).access = (set.methodAt m).access :=
  congrArg (·.access) (same.methodAt m).decl

theorem methodCode (m : MethodId) : (other.methodAt (ρ.method m)).code = (set.methodAt m).code :=
  congrArg (·.code) (same.methodAt m).decl

theorem fieldName (f : FieldId) : (other.fieldAt (ρ.field f)).name = (set.fieldAt f).name :=
  congrArg (·.name) (same.fieldAt f).decl

theorem fieldDesc (f : FieldId) : (other.fieldAt (ρ.field f)).desc = (set.fieldAt f).desc :=
  congrArg (·.desc) (same.fieldAt f).decl

theorem fieldAccess (f : FieldId) : (other.fieldAt (ρ.field f)).access = (set.fieldAt f).access :=
  congrArg (·.access) (same.fieldAt f).decl

theorem otherApart : other.NamesApart := by
  intro id id' known known' alike
  obtain ⟨id, rfl⟩ := ρ.cls.surjective id
  obtain ⟨id', rfl⟩ := ρ.cls.surjective id'
  rw [same.hasClass_iff] at known known'
  rw [same.name, same.name] at alike
  rw [same.apart id id' known known' alike]

theorem otherFormed : other.WellFormed where
  methods cls m member := by
    obtain ⟨cls, rfl⟩ := ρ.cls.surjective cls
    rw [same.classAt] at member
    obtain ⟨m, listed, rfl⟩ := List.mem_map.1 member
    obtain ⟨known, own⟩ := same.formed.methods cls m listed
    exact ⟨(same.hasMethod_iff m).2 known,
      (same.methodDeclaredBy m known).trans (congrArg ρ.cls own)⟩
  fields cls f member := by
    obtain ⟨cls, rfl⟩ := ρ.cls.surjective cls
    rw [same.classAt] at member
    obtain ⟨f, listed, rfl⟩ := List.mem_map.1 member
    obtain ⟨known, own⟩ := same.formed.fields cls f listed
    exact ⟨(same.hasField_iff f).2 known, (same.fieldDeclaredBy f known).trans (congrArg ρ.cls own)⟩
  views cls m member := by
    obtain ⟨cls, rfl⟩ := ρ.cls.surjective cls
    rw [same.classAt] at member
    obtain ⟨m, shown, rfl⟩ := List.mem_map.1 member
    exact (same.hasMethod_iff m).2 (same.formed.views cls m shown)

theorem find? (name : String) : other.find? name = (set.find? name).map ρ.cls := by
  cases found : set.find? name with
  | some id =>
    obtain ⟨known, isName⟩ := find?_eq_some found
    exact (find?_eq_some_iff same.otherApart).2 ⟨(same.hasClass_iff id).2 known,
      (same.name id).trans isName⟩
  | none =>
    cases found' : other.find? name with
    | none => rfl
    | some id' =>
      obtain ⟨id, rfl⟩ := ρ.cls.surjective id'
      obtain ⟨known, isName⟩ := find?_eq_some found'
      rw [same.hasClass_iff] at known
      rw [same.name] at isName
      rw [(find?_eq_some_iff same.apart).2 ⟨known, isName⟩] at found
      cases found

end Reading

theorem refl {set : ClassSet} (apart : set.NamesApart) (formed : set.WellFormed) :
    Renumbered ⟨.refl _, .refl _, .refl _⟩ set set where
  classpath := rfl
  classCount := rfl
  methodCount := rfl
  fieldCount := rfl
  unusedClass _ _ := rfl
  unusedMethod _ _ := rfl
  unusedField _ _ := rfl
  classAt id := by simp [ClassEntry.renumber]
  methodAt _ := ⟨rfl, rfl, fun _ => .rfl⟩
  fieldAt _ := ⟨rfl, rfl, fun _ => .rfl⟩
  methodDeclaredBy _ _ := rfl
  fieldDeclaredBy _ _ := rfl
  apart := apart
  formed := formed

theorem trans {σ : Renumbering} {third : ClassSet} (first : Renumbered ρ set other)
    (second : Renumbered σ other third) :
    Renumbered ⟨ρ.cls.trans σ.cls, ρ.method.trans σ.method, ρ.field.trans σ.field⟩ set third where
  classpath := second.classpath.trans first.classpath
  classCount := second.classCount.trans first.classCount
  methodCount := second.methodCount.trans first.methodCount
  fieldCount := second.fieldCount.trans first.fieldCount
  unusedClass id unknown :=
    (second.unusedClass _ fun known => unknown ((first.hasClass_iff id).1 known)).trans
      (first.unusedClass id unknown)
  unusedMethod m unknown :=
    (second.unusedMethod _ fun known => unknown ((first.hasMethod_iff m).1 known)).trans
      (first.unusedMethod m unknown)
  unusedField f unknown :=
    (second.unusedField _ fun known => unknown ((first.hasField_iff f).1 known)).trans
      (first.unusedField f unknown)
  classAt id := by
    rw [Equiv.trans_apply, second.classAt, first.classAt]
    simp [ClassEntry.renumber]
  methodAt m :=
    have one := first.methodAt m
    have two := second.methodAt (ρ.method m)
    ⟨two.decl.trans one.decl, two.hidden.trans one.hidden,
      fun o => (two.owners (ρ.cls o)).trans (one.owners o)⟩
  fieldAt f :=
    have one := first.fieldAt f
    have two := second.fieldAt (ρ.field f)
    ⟨two.decl.trans one.decl, two.hidden.trans one.hidden,
      fun o => (two.owners (ρ.cls o)).trans (one.owners o)⟩
  methodDeclaredBy m known :=
    (second.methodDeclaredBy _ ((first.hasMethod_iff m).2 known)).trans
      (congrArg σ.cls (first.methodDeclaredBy m known))
  fieldDeclaredBy f known :=
    (second.fieldDeclaredBy _ ((first.hasField_iff f).2 known)).trans
      (congrArg σ.cls (first.fieldDeclaredBy f known))
  apart := first.apart
  formed := first.formed

end Renumbered

end ClassSet

/-! ### Looking up

Supertypes are named, views and lists of members are in one order in both sets, and candidates are
in the order of their names. -/

section Lists

variable {α β γ : Type}

theorem eraseDups_map [DecidableEq α] [DecidableEq β] {f : α → β} (injective : f.Injective) :
    ∀ (n : Nat) (xs : List α), xs.length ≤ n → (xs.map f).eraseDups = xs.eraseDups.map f := by
  intro n
  induction n with
  | zero =>
    intro xs short
    obtain rfl := List.length_eq_zero_iff.1 (Nat.le_zero.1 short)
    simp
  | succ n ih =>
    intro xs short
    cases xs with
    | nil => simp
    | cons x xs =>
      have shorter : (xs.filter fun y => !y == x).length ≤ n :=
        (List.length_filter_le _ _).trans (Nat.le_of_succ_le_succ short)
      have kept : (xs.map f).filter (fun y => !y == f x) = (xs.filter fun y => !y == x).map f := by
        rw [List.filter_map]
        refine congrArg _ (List.filter_congr fun y _ => ?_)
        simp [injective.eq_iff]
      rw [List.map_cons, List.eraseDups_cons, List.eraseDups_cons, List.map_cons,
        kept, ih _ shorter]

/-- What is found among other numbers is found under its other number. -/
theorem find?_map_eq {f : α → β} {p : β → Bool} {q : α → Bool} (same : ∀ x, p (f x) = q x)
    (xs : List α) :
    (xs.map f).find? p = (xs.find? q).map f := by
  rw [List.find?_map]
  exact congrArg (fun r => Option.map f (List.find? r xs)) (funext same)

theorem findSome?_map_eq {f : α → β} {p : β → Option γ} {q : α → Option γ}
    (same : ∀ x, p (f x) = q x) (xs : List α) : (xs.map f).findSome? p = xs.findSome? q := by
  rw [List.findSome?_map]
  exact congrArg (fun r => List.findSome? r xs) (funext same)

end Lists

namespace ClassSet.Renumbered

variable {ρ : Renumbering} {set other : ClassSet} (same : Renumbered ρ set other)
include same

theorem superOf? (id : ClassId) : other.superOf? (ρ.cls id) = (set.superOf? id).map ρ.cls := by
  rw [ClassSet.superOf?, ClassSet.superOf?, congrArg (·.superName) (same.header id)]
  cases (set.classAt id).superName with
  | none => rfl
  | some name => exact same.find? name

theorem interfacesOf (id : ClassId) :
    other.interfacesOf (ρ.cls id) = (set.interfacesOf id).map ρ.cls := by
  rw [ClassSet.interfacesOf, ClassSet.interfacesOf, congrArg (·.interfaces) (same.header id),
    List.map_filterMap]
  exact congrArg (fun f => List.filterMap f _) (funext same.find?)

theorem superChainFrom (fuel : Nat) (seen : List ClassId) (id : ClassId) :
    other.superChainFrom fuel (seen.map ρ.cls) (ρ.cls id) =
      (set.superChainFrom fuel seen id).map ρ.cls := by
  induction fuel generalizing seen id with
  | zero => rfl
  | succ fuel ih =>
    rw [ClassSet.superChainFrom, ClassSet.superChainFrom, same.superOf?]
    by_cases entered : id ∈ seen
    · rw [if_pos entered, if_pos (List.mem_map_of_mem entered), List.map_nil]
    · rw [if_neg entered, if_neg (mt (List.mem_map_of_injective ρ.cls.injective).1 entered)]
      cases set.superOf? id with
      | none => rfl
      | some next => exact congrArg _ (ih (id :: seen) next)

theorem superChain (id : ClassId) :
    other.superChain (ρ.cls id) = (set.superChain id).map ρ.cls := by
  rw [ClassSet.superChain, ClassSet.superChain, same.classCount]
  exact same.superChainFrom _ [] id

theorem flatMap_interfacesOf (ids : List ClassId) :
    (ids.map ρ.cls).flatMap other.interfacesOf = (ids.flatMap set.interfacesOf).map ρ.cls := by
  rw [List.flatMap_map, List.map_flatMap]
  exact congrArg (fun f => List.flatMap f ids) (funext same.interfacesOf)

theorem interfaceLevels (fuel : Nat) (seen level : List ClassId) :
    other.interfaceLevels fuel (seen.map ρ.cls) (level.map ρ.cls) =
      (set.interfaceLevels fuel seen level).map ρ.cls := by
  induction fuel generalizing seen level with
  | zero => rfl
  | succ fuel ih =>
    have unseen : (level.map ρ.cls).filter (fun id => !(seen.map ρ.cls).contains id) =
        (level.filter fun id => !seen.contains id).map ρ.cls := by
      rw [List.filter_map]
      refine congrArg _ (List.filter_congr fun id _ => congrArg Bool.not ?_)
      rw [Bool.eq_iff_iff]
      simp [ρ.cls.injective.eq_iff]
    rw [ClassSet.interfaceLevels, ClassSet.interfaceLevels]
    simp only [unseen, eraseDups_map ρ.cls.injective _ _ (Nat.le_refl _), List.isEmpty_map]
    split
    · rfl
    · rw [← List.map_append, same.flatMap_interfacesOf, ih, List.map_append]

theorem hierarchy (id : ClassId) : other.hierarchy (ρ.cls id) = (set.hierarchy id).map ρ.cls := by
  rw [ClassSet.hierarchy, ClassSet.hierarchy]
  simp only [same.superChain, same.flatMap_interfacesOf, same.classCount, same.interfaceLevels,
    List.map_append]

theorem mem_ancestors (id ancestor : ClassId) :
    ρ.cls ancestor ∈ other.ancestors (ρ.cls id) ↔ ancestor ∈ set.ancestors id := by
  rw [ClassSet.ancestors, ClassSet.ancestors, List.mem_mergeSort, List.mem_mergeSort,
    List.mem_filter, List.mem_filter, same.hierarchy, List.mem_map_of_injective ρ.cls.injective]
  simp [ρ.cls.injective.eq_iff]

theorem hasSignature (m : MethodId) (name desc : String) :
    (other.methodAt (ρ.method m)).hasSignature name desc =
      (set.methodAt m).hasSignature name desc := by
  rw [MethodEntry.hasSignature, MethodEntry.hasSignature, same.methodName, same.methodDesc]

theorem viewed? (name desc : String) (id : ClassId) :
    other.viewed? name desc (ρ.cls id) = (set.viewed? name desc id).map ρ.method := by
  rw [ClassSet.viewed?, ClassSet.viewed?, same.classAt]
  exact find?_map_eq (fun m => same.hasSignature m name desc) _

theorem declaredMethod? (name desc : String) (id : ClassId) :
    other.declaredMethod? name desc (ρ.cls id) =
      (set.declaredMethod? name desc id).map ρ.method := by
  rw [ClassSet.declaredMethod?, ClassSet.declaredMethod?, same.classAt]
  exact find?_map_eq (fun m => same.hasSignature m name desc) _

theorem declaredField? (name desc : String) (id : ClassId) :
    other.declaredField? name desc (ρ.cls id) = (set.declaredField? name desc id).map ρ.field := by
  rw [ClassSet.declaredField?, ClassSet.declaredField?, same.classAt]
  refine find?_map_eq (fun f => ?_) _
  rw [FieldEntry.hasSignature, FieldEntry.hasSignature, same.fieldName, same.fieldDesc]

omit same in
/-- The first thing that is found along classes is found under its other number. -/
theorem findSome? {α β : Type} {f : α → β} {p : ClassId → Option β} {q : ClassId → Option α}
    (alike : ∀ id, p (ρ.cls id) = (q id).map f) (ids : List ClassId) :
    (ids.map ρ.cls).findSome? p = (ids.findSome? q).map f := by
  rw [findSome?_map_eq alike, List.map_findSome?]
  rfl

theorem findMethod (id : ClassId) (name desc : String) :
    other.findMethod (ρ.cls id) name desc = (set.findMethod id name desc).map ρ.method := by
  rw [ClassSet.findMethod, ClassSet.findMethod, same.hierarchy]
  exact findSome? (same.viewed? name desc) _

theorem findField (id : ClassId) (name desc : String) :
    other.findField (ρ.cls id) name desc = (set.findField id name desc).map ρ.field := by
  rw [ClassSet.findField, ClassSet.findField, same.hierarchy]
  exact findSome? (same.declaredField? name desc) _

theorem bodyOf (id : ClassId) (handle : MethodId) :
    other.bodyOf (ρ.cls id) (ρ.method handle) = (set.bodyOf id handle).map ρ.method := by
  rw [ClassSet.bodyOf, ClassSet.bodyOf, same.superChain]
  simp only [same.methodName, same.methodDesc]
  exact findSome? (same.declaredMethod? _ _) _

theorem isCandidate (id : ClassId) : other.isCandidate (ρ.cls id) = set.isCandidate id := by
  rw [ClassSet.isCandidate, ClassSet.isCandidate, same.classAt]
  rfl

omit same in
theorem mem_classIds (set : ClassSet) (id : ClassId) : id ∈ set.classIds ↔ set.HasClass id := by
  obtain ⟨index⟩ := id
  simp [classIds, HasClass]

/-- Candidates have different names, so their order is the same. -/
theorem candidates : other.candidates = set.candidates.map ρ.cls := by
  have different (u : ClassSet) : u.candidates.Nodup := by
    refine (List.mergeSort_perm _ _).nodup_iff.2 (List.Nodup.filter _ ?_)
    exact List.Nodup.map (fun i j h => congrArg ClassId.index h) List.nodup_range
  have visible (u : ClassSet) (id : ClassId) : id ∈ u.candidates ↔
      u.HasClass id ∧ u.isCandidate id = true := by
    rw [ClassSet.candidates, List.mem_mergeSort, List.mem_filter, mem_classIds]
  have members : other.candidates.Perm (set.candidates.map ρ.cls) := by
    refine (List.perm_ext_iff_of_nodup (different other)
      (List.Nodup.map ρ.cls.injective (different set))).2 fun id => ?_
    obtain ⟨id, rfl⟩ := ρ.cls.surjective id
    rw [List.mem_map_of_injective ρ.cls.injective, visible, visible, same.hasClass_iff,
      same.isCandidate]
  refine members.eq_of_pairwise (fun a b isLeft isRight le ge => ?_) other.candidates_byName ?_
  · refine same.otherApart a b ((visible other a).1 isLeft).1
      ((visible other b).1 (members.mem_iff.2 isRight)).1 ?_
    exact Std.LawfulEqCmp.eq_of_compare (Std.OrientedCmp.isLE_antisymm le ge)
  · rw [List.pairwise_map]
    simp only [same.name]
    exact set.candidates_byName

theorem methodCandidates (id : ClassId) :
    other.methodCandidates (ρ.cls id) = (set.methodCandidates id).map ρ.method := by
  rw [ClassSet.methodCandidates, ClassSet.methodCandidates, same.classAt, ClassEntry.renumber,
    List.filter_map]
  refine congrArg _ (List.filter_congr fun m _ => congrArg Bool.not ?_)
  exact (same.methodAt m).hidden

theorem fieldCandidates (id : ClassId) :
    other.fieldCandidates (ρ.cls id) = (set.fieldCandidates id).map ρ.field := by
  rw [ClassSet.fieldCandidates, ClassSet.fieldCandidates, same.classAt, ClassEntry.renumber,
    List.filter_map]
  refine congrArg _ (List.filter_congr fun f _ => congrArg Bool.not ?_)
  exact (same.fieldAt f).hidden

theorem mentioned (id : ClassId) : other.mentioned (ρ.cls id) = set.mentioned id := by
  have methods (m : MethodId) :
      (other.methodAt (ρ.method m)).classNames = (set.methodAt m).classNames :=
    congrArg MethodDecl.classNames (same.methodAt m).decl
  rw [ClassSet.mentioned, ClassSet.mentioned]
  simp only [same.classAt, ClassEntry.renumber, List.flatMap_map, same.fieldDesc, methods]

end ClassSet.Renumbered

end JvmPatch
