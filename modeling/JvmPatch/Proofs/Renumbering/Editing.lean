import JvmPatch.Proofs.Renumbering.Basic

/-! Changes that are made alike in two class sets that differ in numbers only. They differ in
numbers only afterwards, too. -/

set_option autoImplicit false

namespace JvmPatch.ClassSet

theorem modifyClass_of_unknown {set : ClassSet} {id : ClassId} (unknown : ¬set.HasClass id)
    (f : ClassEntry → ClassEntry) : set.modifyClass id f = set := by
  have same : set.classes.modify id.index f = set.classes := by
    refine Array.ext (by simp) fun i _ inside => ?_
    have different : id.index ≠ i :=
      fun is => unknown (is.symm ▸ inside : id.index < set.classes.size)
    simp [Array.getElem_modify, different]
  rw [modifyClass, same]

theorem modifyMethod_of_unknown {set : ClassSet} {m : MethodId} (unknown : ¬set.HasMethod m)
    (f : MethodEntry → MethodEntry) : set.modifyMethod m f = set := by
  have same : set.methods.modify m.index f = set.methods := by
    refine Array.ext (by simp) fun i _ inside => ?_
    have different : m.index ≠ i :=
      fun is => unknown (is.symm ▸ inside : m.index < set.methods.size)
    simp [Array.getElem_modify, different]
  rw [modifyMethod, same]

theorem modifyField_of_unknown {set : ClassSet} {f : FieldId} (unknown : ¬set.HasField f)
    (g : FieldEntry → FieldEntry) : set.modifyField f g = set := by
  have same : set.fields.modify f.index g = set.fields := by
    refine Array.ext (by simp) fun i _ inside => ?_
    have different : f.index ≠ i := fun is => unknown (is.symm ▸ inside : f.index < set.fields.size)
    simp [Array.getElem_modify, different]
  rw [modifyField, same]

namespace Renumbered

variable {ρ : Renumbering} {set other : ClassSet}

/-- One class is changed in both sets. -/
theorem modifyClass (same : Renumbered ρ set other) (id : ClassId) {f g : ClassEntry → ClassEntry}
    (alike : g ((set.classAt id).renumber ρ) = (f (set.classAt id)).renumber ρ)
    (evolves : Evolves .everything set (set.modifyClass id f)) :
    Renumbered ρ (set.modifyClass id f) (other.modifyClass (ρ.cls id) g) := by
  by_cases unknown : ¬set.HasClass id
  · rw [modifyClass_of_unknown unknown,
      modifyClass_of_unknown fun has => unknown ((same.hasClass_iff id).1 has)]
    exact same
  have known := not_not.1 unknown
  have has (cls : ClassId) : (set.modifyClass id f).HasClass cls ↔ set.HasClass cls :=
    set.hasClass_modifyClass id cls f
  constructor
  case classpath => exact same.classpath
  case classCount => simp [ClassSet.modifyClass, same.classCount]
  case methodCount => exact same.methodCount
  case fieldCount => exact same.fieldCount
  case unusedClass => exact fun cls unknown => same.unusedClass cls fun h => unknown ((has cls).2 h)
  case unusedMethod => exact same.unusedMethod
  case unusedField => exact same.unusedField
  case classAt =>
    intro cls
    by_cases here : cls = id
    · subst here
      rw [set.classAt_modifyClass_self f known,
        other.classAt_modifyClass_self g ((same.hasClass_iff cls).2 known), same.classAt, alike]
    · rw [set.classAt_modifyClass_of_ne f here,
        other.classAt_modifyClass_of_ne g fun h => here (ρ.cls.injective h), same.classAt]
  case methodAt => exact same.methodAt
  case fieldAt => exact same.fieldAt
  case methodDeclaredBy => exact same.methodDeclaredBy
  case fieldDeclaredBy => exact same.fieldDeclaredBy
  case apart =>
    intro cls cls' known known' alike
    rw [has] at known known'
    rw [evolves.names cls known, evolves.names cls' known'] at alike
    exact same.apart cls cls' known known' alike
  case formed => exact evolves.wellFormed same.formed

/-- One method is changed in both sets. -/
theorem modifyMethod (same : Renumbered ρ set other) (m : MethodId)
    {f g : MethodEntry → MethodEntry}
    (alike : (set.methodAt m).Alike ρ (other.methodAt (ρ.method m)) →
      (f (set.methodAt m)).Alike ρ (g (other.methodAt (ρ.method m))))
    (declaredBy : ∀ e, (f e).declaredBy = e.declaredBy ∧ (g e).declaredBy = e.declaredBy)
    (evolves : Evolves .everything set (set.modifyMethod m f)) :
    Renumbered ρ (set.modifyMethod m f) (other.modifyMethod (ρ.method m) g) := by
  by_cases unknown : ¬set.HasMethod m
  · rw [modifyMethod_of_unknown unknown,
      modifyMethod_of_unknown fun has => unknown ((same.hasMethod_iff m).1 has)]
    exact same
  have known := not_not.1 unknown
  have has (n : MethodId) : (set.modifyMethod m f).HasMethod n ↔ set.HasMethod n :=
    set.hasMethod_modifyMethod m n f
  constructor
  case classpath => exact same.classpath
  case classCount => exact same.classCount
  case methodCount => simp [ClassSet.modifyMethod, same.methodCount]
  case fieldCount => exact same.fieldCount
  case unusedClass => exact same.unusedClass
  case unusedMethod => exact fun n unknown => same.unusedMethod n fun h => unknown ((has n).2 h)
  case unusedField => exact same.unusedField
  case classAt => exact same.classAt
  case methodAt =>
    intro n
    by_cases here : n = m
    · subst here
      rw [set.methodAt_modifyMethod_self f known,
        other.methodAt_modifyMethod_self g ((same.hasMethod_iff n).2 known)]
      exact alike (same.methodAt n)
    · rw [set.methodAt_modifyMethod_of_ne f here,
        other.methodAt_modifyMethod_of_ne g fun h => here (ρ.method.injective h)]
      exact same.methodAt n
  case fieldAt => exact same.fieldAt
  case methodDeclaredBy =>
    intro n isKnown
    rw [set.methodAt_modifyMethod_same (·.declaredBy) (fun e => (declaredBy e).1) m n,
      other.methodAt_modifyMethod_same (·.declaredBy) (fun e => (declaredBy e).2) _ _]
    exact same.methodDeclaredBy n ((has n).1 isKnown)
  case fieldDeclaredBy => exact same.fieldDeclaredBy
  case apart => exact same.apart
  case formed => exact evolves.wellFormed same.formed

/-- One field is changed in both sets. -/
theorem modifyField (same : Renumbered ρ set other) (f : FieldId) {g h : FieldEntry → FieldEntry}
    (alike : (set.fieldAt f).Alike ρ (other.fieldAt (ρ.field f)) →
      (g (set.fieldAt f)).Alike ρ (h (other.fieldAt (ρ.field f))))
    (declaredBy : ∀ e, (g e).declaredBy = e.declaredBy ∧ (h e).declaredBy = e.declaredBy)
    (evolves : Evolves .everything set (set.modifyField f g)) :
    Renumbered ρ (set.modifyField f g) (other.modifyField (ρ.field f) h) := by
  by_cases unknown : ¬set.HasField f
  · rw [modifyField_of_unknown unknown,
      modifyField_of_unknown fun has => unknown ((same.hasField_iff f).1 has)]
    exact same
  have known := not_not.1 unknown
  have has (n : FieldId) : (set.modifyField f g).HasField n ↔ set.HasField n :=
    set.hasField_modifyField f n g
  constructor
  case classpath => exact same.classpath
  case classCount => exact same.classCount
  case methodCount => exact same.methodCount
  case fieldCount => simp [ClassSet.modifyField, same.fieldCount]
  case unusedClass => exact same.unusedClass
  case unusedMethod => exact same.unusedMethod
  case unusedField => exact fun n unknown => same.unusedField n fun h => unknown ((has n).2 h)
  case classAt => exact same.classAt
  case methodAt => exact same.methodAt
  case fieldAt =>
    intro n
    by_cases here : n = f
    · subst here
      rw [set.fieldAt_modifyField_self g known,
        other.fieldAt_modifyField_self h ((same.hasField_iff n).2 known)]
      exact alike (same.fieldAt n)
    · rw [set.fieldAt_modifyField_of_ne g here,
        other.fieldAt_modifyField_of_ne h fun is => here (ρ.field.injective is)]
      exact same.fieldAt n
  case methodDeclaredBy => exact same.methodDeclaredBy
  case fieldDeclaredBy =>
    intro n isKnown
    rw [set.fieldAt_modifyField_same (·.declaredBy) (fun e => (declaredBy e).1) f n,
      other.fieldAt_modifyField_same (·.declaredBy) (fun e => (declaredBy e).2) _ _]
    exact same.fieldDeclaredBy n ((has n).1 isKnown)
  case apart => exact same.apart
  case formed => exact evolves.wellFormed same.formed

/-- A class without members comes in under a new name. -/
theorem addClass (same : Renumbered ρ set other) {c : ClassEntry} (fields : c.fields = [])
    (methods : c.methods = []) (view : c.view = []) (new : set.find? c.name = none) :
    Renumbered ρ (set.addClass c) (other.addClass c) := by
  have has (id : ClassId) : (set.addClass c).HasClass id ↔ set.HasClass id ∨
      id = set.nextClass := by
    obtain ⟨index⟩ := id
    simp only [HasClass, ClassSet.addClass, Array.size_push, ClassSet.nextClass, ClassId.mk.injEq]
    omega
  have entry (u : ClassSet) (id : ClassId) :
      (u.addClass c).classAt id = if id = u.nextClass then c else u.classAt id := by
    obtain ⟨index⟩ := id
    simp only [ClassSet.classAt, ClassSet.addClass, ClassSet.nextClass, Array.getElem?_push,
      ClassId.mk.injEq]
    split <;> rfl
  have newName (id : ClassId) (known : set.HasClass id) : (set.classAt id).name ≠ c.name := by
    intro isName
    rw [(find?_eq_some_iff same.apart).2 ⟨known, isName⟩] at new
    cases new
  constructor
  case classpath => exact same.classpath
  case classCount => simp [ClassSet.addClass, same.classCount]
  case methodCount => exact same.methodCount
  case fieldCount => exact same.fieldCount
  case unusedClass =>
    exact fun id unknown => same.unusedClass id fun known => unknown ((has id).2 (.inl known))
  case unusedMethod => exact same.unusedMethod
  case unusedField => exact same.unusedField
  case classAt =>
    intro id
    rw [entry set id, entry other (ρ.cls id), ← same.nextClass]
    by_cases isNew : id = set.nextClass
    · rw [if_pos isNew, if_pos (congrArg ρ.cls isNew), ClassEntry.renumber, fields, methods, view]
      cases c
      simp_all
    · rw [if_neg isNew, if_neg fun h => isNew (ρ.cls.injective h), same.classAt]
  case methodAt => exact same.methodAt
  case fieldAt => exact same.fieldAt
  case methodDeclaredBy => exact same.methodDeclaredBy
  case fieldDeclaredBy => exact same.fieldDeclaredBy
  case apart =>
    intro id id' known known' alike
    rw [entry, entry] at alike
    have isKnown {x : ClassId} (known : (set.addClass c).HasClass x)
        (other : x ≠ set.nextClass) : set.HasClass x :=
      ((has x).1 known).resolve_right other
    split at alike
    · rename_i is
      split at alike
      · rename_i is'
        exact is.trans is'.symm
      · rename_i isNot
        exact absurd alike.symm (newName id' (isKnown known' isNot))
    · rename_i isNot
      split at alike
      · exact absurd alike (newName id (isKnown known isNot))
      · rename_i isNot'
        exact same.apart id id' (isKnown known isNot) (isKnown known' isNot') alike
  case formed => exact (Evolves.addClass .everything set methods fields view).wellFormed same.formed

section Members

/-- A method comes in that no class lists yet. -/
private theorem pushMethod (same : Renumbered ρ set other) (id : ClassId) (m : MethodDecl)
    (hidden : Bool) :
    Renumbered ρ
      { set with
        methods := set.methods.push { m with declaredBy := id, owners := [id], hidden := hidden } }
      { other with
        methods := other.methods.push { m with
            declaredBy := ρ.cls id, owners := [ρ.cls id], hidden := hidden } } := by
  have entry (u : ClassSet) (x : MethodEntry) (n : MethodId) :
      ({ u with methods := u.methods.push x } : ClassSet).methodAt n =
        if n = u.nextMethod then x else u.methodAt n := by
    obtain ⟨index⟩ := n
    simp only [ClassSet.methodAt, ClassSet.nextMethod, Array.getElem?_push, MethodId.mk.injEq]
    split <;> rfl
  have has (n : MethodId) :
      ({ set with
        methods := set.methods.push { m with
            declaredBy := id, owners := [id], hidden := hidden } } : ClassSet).HasMethod n ↔
        set.HasMethod n ∨ n = set.nextMethod := by
    obtain ⟨index⟩ := n
    simp only [HasMethod, Array.size_push, ClassSet.nextMethod, MethodId.mk.injEq]
    omega
  constructor
  case classpath => exact same.classpath
  case classCount => exact same.classCount
  case methodCount => simp [same.methodCount]
  case fieldCount => exact same.fieldCount
  case unusedClass => exact same.unusedClass
  case unusedMethod =>
    exact fun n unknown => same.unusedMethod n fun known => unknown ((has n).2 (.inl known))
  case unusedField => exact same.unusedField
  case classAt => exact same.classAt
  case methodAt =>
    intro n
    rw [entry, entry, ← same.nextMethod]
    by_cases isNew : n = set.nextMethod
    · rw [if_pos isNew, if_pos (congrArg ρ.method isNew)]
      exact ⟨rfl, rfl, fun o => by simp⟩
    · rw [if_neg isNew, if_neg fun h => isNew (ρ.method.injective h)]
      exact same.methodAt n
  case fieldAt => exact same.fieldAt
  case methodDeclaredBy =>
    intro n known
    rw [entry, entry, ← same.nextMethod]
    by_cases isNew : n = set.nextMethod
    · rw [if_pos isNew, if_pos (congrArg ρ.method isNew)]
    · rw [if_neg isNew, if_neg fun h => isNew (ρ.method.injective h)]
      exact same.methodDeclaredBy n (((has n).1 known).resolve_right isNew)
  case fieldDeclaredBy => exact same.fieldDeclaredBy
  case apart => exact same.apart
  case formed => exact (Evolves.pushMethod .everything set _).wellFormed same.formed

/-- A field comes in that no class lists yet. -/
private theorem pushField (same : Renumbered ρ set other) (id : ClassId) (f : FieldDecl)
    (hidden : Bool) :
    Renumbered ρ
      { set with
        fields := set.fields.push { f with declaredBy := id, owners := [id], hidden := hidden } }
      { other with
        fields := other.fields.push { f with
            declaredBy := ρ.cls id, owners := [ρ.cls id], hidden := hidden } } := by
  have entry (u : ClassSet) (x : FieldEntry) (n : FieldId) :
      ({ u with fields := u.fields.push x } : ClassSet).fieldAt n =
        if n = u.nextField then x else u.fieldAt n := by
    obtain ⟨index⟩ := n
    simp only [ClassSet.fieldAt, ClassSet.nextField, Array.getElem?_push, FieldId.mk.injEq]
    split <;> rfl
  have has (n : FieldId) :
      ({ set with
        fields := set.fields.push { f with declaredBy := id, owners := [id], hidden := hidden } } :
          ClassSet).HasField n ↔
        set.HasField n ∨ n = set.nextField := by
    obtain ⟨index⟩ := n
    simp only [HasField, Array.size_push, ClassSet.nextField, FieldId.mk.injEq]
    omega
  constructor
  case classpath => exact same.classpath
  case classCount => exact same.classCount
  case methodCount => exact same.methodCount
  case fieldCount => simp [same.fieldCount]
  case unusedClass => exact same.unusedClass
  case unusedMethod => exact same.unusedMethod
  case unusedField =>
    exact fun n unknown => same.unusedField n fun known => unknown ((has n).2 (.inl known))
  case classAt => exact same.classAt
  case methodAt => exact same.methodAt
  case fieldAt =>
    intro n
    rw [entry, entry, ← same.nextField]
    by_cases isNew : n = set.nextField
    · rw [if_pos isNew, if_pos (congrArg ρ.field isNew)]
      exact ⟨rfl, rfl, fun o => by simp⟩
    · rw [if_neg isNew, if_neg fun h => isNew (ρ.field.injective h)]
      exact same.fieldAt n
  case methodDeclaredBy => exact same.methodDeclaredBy
  case fieldDeclaredBy =>
    intro n known
    rw [entry, entry, ← same.nextField]
    by_cases isNew : n = set.nextField
    · rw [if_pos isNew, if_pos (congrArg ρ.field isNew)]
    · rw [if_neg isNew, if_neg fun h => isNew (ρ.field.injective h)]
      exact same.fieldDeclaredBy n (((has n).1 known).resolve_right isNew)
  case apart => exact same.apart
  case formed => exact (Evolves.pushField .everything set _).wellFormed same.formed

theorem addMethod (same : Renumbered ρ set other) (id : ClassId) (m : MethodDecl) (hidden : Bool) :
    Renumbered ρ (set.addMethod id m hidden) (other.addMethod (ρ.cls id) m hidden) := by
  let entry : MethodEntry := { m with declaredBy := id, owners := [id], hidden := hidden }
  let pushed : ClassSet := { set with methods := set.methods.push entry }
  have isNew : pushed.HasMethod set.nextMethod ∧
      (pushed.methodAt set.nextMethod).declaredBy = id := by
    simp [HasMethod, ClassSet.methodAt, ClassSet.nextMethod, pushed, entry]
  refine (same.pushMethod id m hidden).modifyClass id ?_
    (.modifyClass trivial pushed ?_ ?_ ?_ ?_ ?_)
  · simp only [ClassEntry.renumber, List.map_append, List.map_cons, List.map_nil, same.nextMethod]
  · exact fun c => rfl
  · intro c x member
    rcases List.mem_append.1 member with old | new
    · exact .inl old
    · exact .inr (List.mem_singleton.1 new ▸ isNew)
  · exact fun c x member => .inl member
  · intro c x member
    rcases List.mem_append.1 member with old | new
    · exact .inl old
    · exact .inr (List.mem_singleton.1 new ▸ isNew.1)
  · exact fun c x member => List.mem_append_left _ member

theorem addField (same : Renumbered ρ set other) (id : ClassId) (f : FieldDecl) (hidden : Bool) :
    Renumbered ρ (set.addField id f hidden) (other.addField (ρ.cls id) f hidden) := by
  let entry : FieldEntry := { f with declaredBy := id, owners := [id], hidden := hidden }
  let pushed : ClassSet := { set with fields := set.fields.push entry }
  have isNew : pushed.HasField set.nextField ∧ (pushed.fieldAt set.nextField).declaredBy = id := by
    simp [HasField, ClassSet.fieldAt, ClassSet.nextField, pushed, entry]
  refine (same.pushField id f hidden).modifyClass id ?_ (.modifyClass trivial pushed ?_ ?_ ?_ ?_ ?_)
  · simp only [ClassEntry.renumber, List.map_append, List.map_cons, List.map_nil, same.nextField]
  · exact fun c => rfl
  · exact fun c x member => .inl member
  · intro c x member
    rcases List.mem_append.1 member with old | new
    · exact .inl old
    · exact .inr (List.mem_singleton.1 new ▸ isNew)
  · exact fun c x member => .inl member
  · exact fun c x member => member

theorem filter_ne_map {α : Type} [DecidableEq α] (p : Equiv.Perm α) (x : α) (xs : List α) :
    (xs.map p).filter (· != p x) = (xs.filter (· != x)).map p := by
  rw [List.filter_map]
  refine congrArg (List.map p) (List.filter_congr fun y _ => ?_)
  simp [bne, p.injective.eq_iff]

theorem removeMethod (same : Renumbered ρ set other) (m : MethodId) :
    Renumbered ρ (set.removeMethod m) (other.removeMethod (ρ.method m)) := by
  have hidden := same.modifyMethod m (f := fun e => { e with hidden := true })
    (g := fun e => { e with hidden := true })
    (fun alike => ⟨alike.decl, rfl, alike.owners⟩) (fun _ => ⟨rfl, rfl⟩) (.hideMethod _ set m)
  have has (id : ClassId) : (set.removeMethod m).HasClass id ↔ set.HasClass id := by
    simp [HasClass, ClassSet.removeMethod, ClassSet.modifyMethod]
  constructor
  case classpath => exact same.classpath
  case classCount => simp [ClassSet.removeMethod, ClassSet.modifyMethod, same.classCount]
  case methodCount => exact hidden.methodCount
  case fieldCount => exact same.fieldCount
  case unusedClass =>
    exact fun id unknown => same.unusedClass id fun known => unknown ((has id).2 known)
  case unusedMethod => exact hidden.unusedMethod
  case unusedField => exact same.unusedField
  case classAt =>
    intro id
    rw [classAt_removeMethod, classAt_removeMethod, same.classAt]
    simp only [ClassEntry.renumber, filter_ne_map]
  case methodAt => exact hidden.methodAt
  case fieldAt => exact same.fieldAt
  case methodDeclaredBy => exact hidden.methodDeclaredBy
  case fieldDeclaredBy => exact same.fieldDeclaredBy
  case apart =>
    intro id id' known known' alike
    rw [classAt_removeMethod, classAt_removeMethod] at alike
    exact same.apart id id' ((has id).1 known) ((has id').1 known') alike
  case formed =>
    have removed : Evolves .everything set (set.removeMethod m) :=
      .removeMethod set fun _ _ => ⟨trivial, trivial⟩
    exact removed.wellFormed same.formed

theorem removeField_of_unknown (formed : set.WellFormed) {f : FieldId} (unknown : ¬set.HasField f) :
    set.removeField f = set := by
  have nowhere (c : ClassId) : (set.classAt c).fields.filter (· != f) = (set.classAt c).fields := by
    refine List.filter_eq_self.2 fun x listed => ?_
    have different : x ≠ f := fun is => unknown (is ▸ (formed.fields c x listed).1)
    simpa using different
  have same (c : ClassId) :
      set.classes.modify c.index (fun e => { e with fields := e.fields.filter (· != f) }) =
        set.classes := by
    refine Array.ext (by simp) fun i _ inside => ?_
    have entry := nowhere ⟨i⟩
    rw [ClassSet.classAt, Array.getElem?_eq_getElem inside, Option.getD_some] at entry
    rw [Array.getElem_modify]
    split
    · rw [entry]
    · rfl
  rw [ClassSet.removeField]
  simp only [modifyField_of_unknown unknown, ClassSet.modifyClass, same]

theorem removeField (same : Renumbered ρ set other) (f : FieldId) :
    Renumbered ρ (set.removeField f) (other.removeField (ρ.field f)) := by
  by_cases unknown : ¬set.HasField f
  · rw [removeField_of_unknown same.formed unknown,
      removeField_of_unknown same.otherFormed fun has => unknown ((same.hasField_iff f).1 has)]
    exact same
  have known := not_not.1 unknown
  have hidden := same.modifyField f (g := fun e => { e with hidden := true })
    (h := fun e => { e with hidden := true })
    (fun alike => ⟨alike.decl, rfl, alike.owners⟩) (fun _ => ⟨rfl, rfl⟩) (.hideField _ set f)
  have owner := hidden.fieldDeclaredBy f ((set.hasField_modifyField f f _).2 known)
  rw [ClassSet.removeField, ClassSet.removeField, owner]
  refine hidden.modifyClass _ ?_ (.modifyClass trivial _ ?_ ?_ ?_ ?_ ?_)
  · simp only [ClassEntry.renumber, filter_ne_map]
  · exact fun c => rfl
  · exact fun c m member => .inl member
  · exact fun c x member => .inl (List.mem_filter.1 member).1
  · exact fun c m member => .inl member
  · exact fun c m member => member

end Members

/-- A class comes in with its members, or its name is taken in both sets. -/
theorem insert? (same : Renumbered ρ set other) (file : ClassFile) (source : Option Bytes)
    (hidden : Bool) :
    Option.Rel (Renumbered ρ) (set.insert? file source hidden)
      (other.insert? file source hidden) := by
  rw [ClassSet.insert?, ClassSet.insert?, same.find?, Option.isSome_map]
  cases taken : set.find? file.header.name with
  | some id => exact .none
  | none =>
    let entry : ClassEntry :=
      { file.header with hidden := hidden, modified := false, source := source }
    have added := same.addClass (c := entry) rfl rfl rfl taken
    have fields (fs : List FieldDecl) : ∀ {u v : ClassSet}, Renumbered ρ u v →
        Renumbered ρ (fs.foldl (fun u f => u.addField set.nextClass f hidden) u)
          (fs.foldl (fun v f => v.addField other.nextClass f hidden) v) := by
      induction fs with
      | nil => exact fun alike => alike
      | cons f fs ih =>
        exact fun alike => ih (same.nextClass ▸ alike.addField set.nextClass f hidden)
    have methods (ms : List MethodDecl) : ∀ {u v : ClassSet}, Renumbered ρ u v →
        Renumbered ρ (ms.foldl (fun u m => u.addMethod set.nextClass m hidden) u)
          (ms.foldl (fun v m => v.addMethod other.nextClass m hidden) v) := by
      induction ms with
      | nil => exact fun alike => alike
      | cons m ms ih =>
        exact fun alike => ih (same.nextClass ▸ alike.addMethod set.nextClass m hidden)
    exact .some (methods file.methods (fields file.fields added))

end Renumbered

end JvmPatch.ClassSet
