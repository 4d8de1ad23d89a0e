import JvmPatch.ClassSet.Hierarchy
import JvmPatch.Scope.Basic
import JvmPatch.Proofs.ClassSet.Evolution

/-! The part of a class set that decides what a reference means and which body stands behind a
method. Method bodies and the marks of modified classes are not part of it. -/

set_option autoImplicit false

namespace JvmPatch.ClassSet

/-- A class set without method bodies and marks. -/
def shape (set : ClassSet) : ClassSet :=
  { set with
    classes := set.classes.map fun c => { c with modified := true }
    methods := set.methods.map fun m => { m with code := none } }

section

variable (set : ClassSet)

theorem classAt_shape {α : Type} (part : ClassEntry → α)
    (same : ∀ c, part { c with modified := true } = part c) (id : ClassId) :
    part (set.shape.classAt id) = part (set.classAt id) := by
  simp only [classAt, shape, Array.getElem?_map]
  cases set.classes[id.index]? <;> simp [same]

theorem methodAt_shape {α : Type} (part : MethodEntry → α)
    (same : ∀ m, part { m with code := none } = part m) (id : MethodId) :
    part (set.shape.methodAt id) = part (set.methodAt id) := by
  simp only [methodAt, shape, Array.getElem?_map]
  cases set.methods[id.index]? <;> simp [same]

theorem size_shape : set.shape.classes.size = set.classes.size := Array.size_map ..

theorem find?_shape (name : String) : set.shape.find? name = set.find? name := by
  rw [find?, find?, shape, Array.findIdx?_map]
  rfl

theorem superOf?_shape (id : ClassId) : set.shape.superOf? id = set.superOf? id := by
  rw [superOf?, superOf?, set.classAt_shape (·.superName) fun _ => rfl]
  exact congrArg _ (funext set.find?_shape)

theorem interfacesOf_shape (id : ClassId) : set.shape.interfacesOf id = set.interfacesOf id := by
  rw [interfacesOf, interfacesOf, set.classAt_shape (·.interfaces) fun _ => rfl]
  exact congrArg (fun f => List.filterMap f _) (funext set.find?_shape)

theorem superChain_shape (id : ClassId) : set.shape.superChain id = set.superChain id := by
  have walk : ∀ fuel seen id,
      set.shape.superChainFrom fuel seen id = set.superChainFrom fuel seen id := by
    intro fuel
    induction fuel with
    | zero => exact fun _ _ => rfl
    | succ fuel ih =>
      intro seen id
      rw [superChainFrom, superChainFrom, superOf?_shape]
      split
      · rfl
      · cases set.superOf? id with
        | none => rfl
        | some next => exact congrArg _ (ih _ _)
  rw [superChain, superChain, size_shape, walk]

theorem hierarchy_shape (id : ClassId) : set.shape.hierarchy id = set.hierarchy id := by
  have interfaces : set.shape.interfacesOf = set.interfacesOf := funext set.interfacesOf_shape
  have levels : ∀ fuel seen level,
      set.shape.interfaceLevels fuel seen level = set.interfaceLevels fuel seen level := by
    intro fuel
    induction fuel with
    | zero => exact fun _ _ => rfl
    | succ fuel ih =>
      intro seen level
      simp only [interfaceLevels, interfaces, ih]
  rw [hierarchy, hierarchy, size_shape, superChain_shape, interfaces, levels]

theorem hasSignature_shape (id : MethodId) (name desc : String) :
    (set.shape.methodAt id).hasSignature name desc = (set.methodAt id).hasSignature name desc :=
  set.methodAt_shape (·.hasSignature name desc) (fun _ => rfl) id

theorem bodyOf_shape (cls : ClassId) (handle : MethodId) :
    set.shape.bodyOf cls handle = set.bodyOf cls handle := by
  have declared : ∀ name desc,
      set.shape.declaredMethod? name desc = set.declaredMethod? name desc := by
    intro name desc
    funext id
    rw [declaredMethod?, declaredMethod?, set.classAt_shape (·.methods) fun _ => rfl]
    simp only [hasSignature_shape]
  rw [bodyOf, bodyOf, superChain_shape, declared, set.methodAt_shape (·.name) fun _ => rfl,
    set.methodAt_shape (·.desc) fun _ => rfl]

theorem findMethod_shape (id : ClassId) (name desc : String) :
    set.shape.findMethod id name desc = set.findMethod id name desc := by
  have viewed : set.shape.viewed? name desc = set.viewed? name desc := by
    funext id
    rw [viewed?, viewed?, set.classAt_shape (·.view) fun _ => rfl]
    simp only [hasSignature_shape]
  rw [findMethod, findMethod, hierarchy_shape, viewed]

theorem findField_shape (id : ClassId) (name desc : String) :
    set.shape.findField id name desc = set.findField id name desc := by
  have declared : set.shape.declaredField? name desc = set.declaredField? name desc := by
    funext id
    rw [declaredField?, declaredField?, set.classAt_shape (·.fields) fun _ => rfl]
    rfl
  rw [findField, findField, hierarchy_shape, declared]

theorem field?_shape (scope : Scope) (owner : ClassId) (key : MemberKey) :
    scope.field? set.shape owner key = scope.field? set owner key := rfl

theorem method?_shape (scope : Scope) (owner : ClassId) (key : MemberKey) :
    scope.method? set.shape owner key = scope.method? set owner key := by
  rw [Scope.method?, Scope.method?]
  simp only [fun id => set.methodAt_shape (·.declaredBy) (fun _ => rfl) id,
    fun id => set.methodAt_shape (·.owners) (fun _ => rfl) id]

/-- Changes of bodies and marks keep the shape. -/
theorem shape_modifyMethod {f : MethodEntry → MethodEntry}
    (same : ∀ m, { f m with code := none } = { m with code := none }) (id : MethodId) :
    (set.modifyMethod id f).shape = set.shape := by
  simp only [shape, modifyMethod]
  congr 1
  apply Array.ext_getElem?
  intro index
  rw [Array.getElem?_map, Array.getElem?_map, Array.getElem?_modify]
  split
  · cases set.methods[index]? <;> simp [same]
  · rfl

theorem shape_modifyClass {f : ClassEntry → ClassEntry}
    (same : ∀ c, { f c with modified := true } = { c with modified := true }) (id : ClassId) :
    (set.modifyClass id f).shape = set.shape := by
  simp only [shape, modifyClass]
  congr 1
  apply Array.ext_getElem?
  intro index
  rw [Array.getElem?_map, Array.getElem?_map, Array.getElem?_modify]
  split
  · cases set.classes[index]? <;> simp [same]
  · rfl

end

/-- What follows from two class sets having the same shape. -/
theorem same_of_shape {α : Type} {f : ClassSet → α} (reads : ∀ set : ClassSet, f set.shape = f set)
    {set later : ClassSet} (same : later.shape = set.shape) : f later = f set := by
  rw [← reads later, same, reads set]

end JvmPatch.ClassSet
