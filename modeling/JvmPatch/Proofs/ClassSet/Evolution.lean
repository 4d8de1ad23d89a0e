import JvmPatch.Proofs.Scope.Extension

/-! What a change of a class set leaves alone. A change may be permitted to edit some classes, and
the flags or the body of some methods; everything else keeps its declaration, and nothing is
renamed. -/

set_option autoImplicit false

namespace JvmPatch

namespace ClassSet

def HasMethod (set : ClassSet) (id : MethodId) : Prop := id.index < set.methods.size

def HasField (set : ClassSet) (id : FieldId) : Prop := id.index < set.fields.size

theorem hasMethod_of_code {set : ClassSet} {id : MethodId} {code : Code}
    (isCode : (set.methodAt id).code = some code) : set.HasMethod id := by
  refine Nat.lt_of_not_le fun outside => ?_
  rw [methodAt, Array.getElem?_eq_none outside] at isCode
  cases isCode

theorem classAt_of_unknown {set : ClassSet} {id : ClassId} (unknown : ¬set.HasClass id) :
    set.classAt id = default := by
  rw [classAt, Array.getElem?_eq_none (Nat.le_of_not_lt unknown)]
  rfl

section Reading

variable (set : ClassSet)

theorem classAt_modifyClass_of_ne {id other : ClassId} (f : ClassEntry → ClassEntry)
    (different : other ≠ id) : (set.modifyClass id f).classAt other = set.classAt other := by
  have indices : id.index ≠ other.index :=
    fun same => different (by cases id; cases other; simp_all)
  simp [classAt, modifyClass, Array.getElem?_modify, indices]

theorem classAt_modifyClass_self {id : ClassId} (f : ClassEntry → ClassEntry)
    (known : set.HasClass id) : (set.modifyClass id f).classAt id = f (set.classAt id) := by
  simp [classAt, modifyClass, Array.getElem?_modify, Array.getElem?_eq_getElem known]

/-- What a modification does not touch is the same in all classes. -/
theorem classAt_modifyClass_same {α : Type} (part : ClassEntry → α) {f : ClassEntry → ClassEntry}
    (same : ∀ c, part (f c) = part c) (id other : ClassId) :
    part ((set.modifyClass id f).classAt other) = part (set.classAt other) := by
  simp only [classAt, modifyClass, Array.getElem?_modify]
  split
  · cases set.classes[other.index]? <;> simp [same]
  · rfl

theorem methodAt_modifyMethod_of_ne {id other : MethodId} (f : MethodEntry → MethodEntry)
    (different : other ≠ id) : (set.modifyMethod id f).methodAt other = set.methodAt other := by
  have indices : id.index ≠ other.index :=
    fun same => different (by cases id; cases other; simp_all)
  simp [methodAt, modifyMethod, Array.getElem?_modify, indices]

theorem methodAt_modifyMethod_self {id : MethodId} (f : MethodEntry → MethodEntry)
    (known : set.HasMethod id) : (set.modifyMethod id f).methodAt id = f (set.methodAt id) := by
  simp [methodAt, modifyMethod, Array.getElem?_modify, Array.getElem?_eq_getElem known]

/-- What a modification does not touch is the same in all methods. -/
theorem methodAt_modifyMethod_same {α : Type} (part : MethodEntry → α)
    {f : MethodEntry → MethodEntry} (same : ∀ m, part (f m) = part m) (id other : MethodId) :
    part ((set.modifyMethod id f).methodAt other) = part (set.methodAt other) := by
  simp only [methodAt, modifyMethod, Array.getElem?_modify]
  split
  · cases set.methods[other.index]? <;> simp [same]
  · rfl

theorem fieldAt_modifyField_of_ne {id other : FieldId} (f : FieldEntry → FieldEntry)
    (different : other ≠ id) : (set.modifyField id f).fieldAt other = set.fieldAt other := by
  have indices : id.index ≠ other.index :=
    fun same => different (by cases id; cases other; simp_all)
  simp [fieldAt, modifyField, Array.getElem?_modify, indices]

theorem fieldAt_modifyField_self {id : FieldId} (f : FieldEntry → FieldEntry)
    (known : set.HasField id) : (set.modifyField id f).fieldAt id = f (set.fieldAt id) := by
  simp [fieldAt, modifyField, Array.getElem?_modify, Array.getElem?_eq_getElem known]

/-- What a modification does not touch is the same in all fields. -/
theorem fieldAt_modifyField_same {α : Type} (part : FieldEntry → α) {f : FieldEntry → FieldEntry}
    (same : ∀ m, part (f m) = part m) (id other : FieldId) :
    part ((set.modifyField id f).fieldAt other) = part (set.fieldAt other) := by
  simp only [fieldAt, modifyField, Array.getElem?_modify]
  split
  · cases set.fields[other.index]? <;> simp [same]
  · rfl

theorem hasClass_modifyClass (id other : ClassId) (f : ClassEntry → ClassEntry) :
    (set.modifyClass id f).HasClass other ↔ set.HasClass other := by
  simp [HasClass, modifyClass]

theorem hasMethod_modifyMethod (id other : MethodId) (f : MethodEntry → MethodEntry) :
    (set.modifyMethod id f).HasMethod other ↔ set.HasMethod other := by
  simp [HasMethod, modifyMethod]

theorem hasField_modifyField (id other : FieldId) (f : FieldEntry → FieldEntry) :
    (set.modifyField id f).HasField other ↔ set.HasField other := by
  simp [HasField, modifyField]

theorem classAt_addClass_of_known (c : ClassEntry) {id : ClassId} (known : set.HasClass id) :
    (set.addClass c).classAt id = set.classAt id := by
  simp [classAt, addClass, Array.getElem?_push_lt known, Array.getElem?_eq_getElem known]

theorem hasClass_addClass (c : ClassEntry) {id : ClassId} (known : set.HasClass id) :
    (set.addClass c).HasClass id := by
  simp only [HasClass, addClass, Array.size_push] at *
  omega

theorem classAt_removeMethod (m : MethodId) (id : ClassId) :
    (set.removeMethod m).classAt id =
      { set.classAt id with
        methods := (set.classAt id).methods.filter (· != m)
        view := (set.classAt id).view.filter (· != m) } := by
  simp only [classAt, removeMethod, modifyMethod, Array.getElem?_map]
  cases set.classes[id.index]? <;> rfl

end Reading

def Declares (set : ClassSet) (cls : ClassId) (name desc : String) : Prop :=
  ∃ m ∈ (set.classAt cls).methods, (set.methodAt m).name = name ∧ (set.methodAt m).desc = desc

/-- The members that a class lists are its own, and all methods that it shows are known. -/
structure WellFormed (set : ClassSet) : Prop where
  methods : ∀ cls, ∀ m ∈ (set.classAt cls).methods,
    set.HasMethod m ∧ (set.methodAt m).declaredBy = cls
  fields : ∀ cls, ∀ f ∈ (set.classAt cls).fields,
    set.HasField f ∧ (set.fieldAt f).declaredBy = cls
  views : ∀ cls, ∀ m ∈ (set.classAt cls).view, set.HasMethod m

/-- What a change may edit: the headers and member lists of classes, the flags of methods, and the
bodies of methods. -/
structure Permit where
  cls : ClassId → Prop
  access : MethodId → Prop
  code : MethodId → Prop
  /-- Whether the method of a class with a name and descriptor may be removed. -/
  drop : ClassId → String → String → Prop

/-- The header of a class and its lists of members are as they were. -/
def SameLists (c later : ClassEntry) : Prop :=
  later.toClassHeader = c.toClassHeader ∧ later.fields = c.fields ∧ later.methods = c.methods

/-- One class set has become another by changes that are permitted. -/
structure Evolves (may : Permit) (set later : ClassSet) : Prop where
  hasClass : ∀ id, set.HasClass id → later.HasClass id
  hasMethod : ∀ id, set.HasMethod id → later.HasMethod id
  hasField : ∀ id, set.HasField id → later.HasField id
  names : set.KeepsNames later
  lists : ∀ id, set.HasClass id → ¬may.cls id → SameLists (set.classAt id) (later.classAt id)
  field : ∀ id, set.HasField id →
    (later.fieldAt id).toFieldDecl = (set.fieldAt id).toFieldDecl ∧
      (later.fieldAt id).declaredBy = (set.fieldAt id).declaredBy
  signature : ∀ id, set.HasMethod id →
    (later.methodAt id).name = (set.methodAt id).name ∧
      (later.methodAt id).desc = (set.methodAt id).desc ∧
      (later.methodAt id).exceptions = (set.methodAt id).exceptions ∧
      (later.methodAt id).declaredBy = (set.methodAt id).declaredBy
  access : ∀ id, set.HasMethod id → ¬may.access id →
    (later.methodAt id).access = (set.methodAt id).access
  code : ∀ id, set.HasMethod id → ¬may.code id →
    (later.methodAt id).code = (set.methodAt id).code
  wellFormed : set.WellFormed → later.WellFormed
  declares : set.WellFormed → ∀ cls name desc, ¬may.drop cls name desc →
    set.Declares cls name desc → later.Declares cls name desc

namespace Evolves

variable {may may' : Permit} {set later latest : ClassSet}

theorem refl (may : Permit) (set : ClassSet) : Evolves may set set where
  hasClass _ h := h
  hasMethod _ h := h
  hasField _ h := h
  names _ _ := rfl
  lists _ _ _ := ⟨rfl, rfl, rfl⟩
  field _ _ := ⟨rfl, rfl⟩
  signature _ _ := ⟨rfl, rfl, rfl, rfl⟩
  access _ _ _ := rfl
  code _ _ _ := rfl
  wellFormed h := h
  declares _ _ _ _ _ h := h

theorem trans (first : Evolves may set later) (second : Evolves may later latest) :
    Evolves may set latest where
  hasClass id h := second.hasClass id (first.hasClass id h)
  hasMethod id h := second.hasMethod id (first.hasMethod id h)
  hasField id h := second.hasField id (first.hasField id h)
  names id h := (second.names id (first.hasClass id h)).trans (first.names id h)
  lists id h not :=
    have one := first.lists id h not
    have two := second.lists id (first.hasClass id h) not
    ⟨two.1.trans one.1, two.2.1.trans one.2.1, two.2.2.trans one.2.2⟩
  field id h :=
    have one := first.field id h
    have two := second.field id (first.hasField id h)
    ⟨two.1.trans one.1, two.2.trans one.2⟩
  signature id h :=
    have one := first.signature id h
    have two := second.signature id (first.hasMethod id h)
    ⟨two.1.trans one.1, two.2.1.trans one.2.1, two.2.2.1.trans one.2.2.1,
      two.2.2.2.trans one.2.2.2⟩
  access id h not := (second.access id (first.hasMethod id h) not).trans (first.access id h not)
  code id h not := (second.code id (first.hasMethod id h) not).trans (first.code id h not)
  wellFormed h := second.wellFormed (first.wellFormed h)
  declares h cls name desc not declared :=
    second.declares (first.wellFormed h) cls name desc
      not (first.declares h cls name desc not declared)

/-- More may be permitted. -/
theorem mono (evolves : Evolves may set later) (cls : ∀ id, may.cls id → may'.cls id)
    (access : ∀ id, may.access id → may'.access id) (code : ∀ id, may.code id → may'.code id)
    (drop : ∀ id name desc, may.drop id name desc → may'.drop id name desc) :
    Evolves may' set later :=
  { evolves with
    lists := fun id h not => evolves.lists id h fun permitted => not (cls id permitted)
    access := fun id h not => evolves.access id h fun permitted => not (access id permitted)
    code := fun id h not => evolves.code id h fun permitted => not (code id permitted)
    declares := fun h id name desc not =>
      evolves.declares h id name desc fun permitted => not (drop id name desc permitted) }

/-- A change of the class entries only. -/
theorem ofClasses (fieldsSame : later.fields = set.fields)
    (methodsSame : later.methods = set.methods)
    (hasClass : ∀ id, set.HasClass id → later.HasClass id) (names : set.KeepsNames later)
    (lists : ∀ id, set.HasClass id → ¬may.cls id → SameLists (set.classAt id) (later.classAt id))
    (methods : ∀ cls, ∀ m ∈ (later.classAt cls).methods,
      m ∈ (set.classAt cls).methods ∨ set.HasMethod m ∧ (set.methodAt m).declaredBy = cls)
    (fields : ∀ cls, ∀ f ∈ (later.classAt cls).fields,
      f ∈ (set.classAt cls).fields ∨ set.HasField f ∧ (set.fieldAt f).declaredBy = cls)
    (views : ∀ cls, ∀ m ∈ (later.classAt cls).view, m ∈ (set.classAt cls).view ∨ set.HasMethod m)
    (kept : ∀ cls, ∀ m ∈ (set.classAt cls).methods,
      m ∈ (later.classAt cls).methods ∨ may.drop cls (set.methodAt m).name (set.methodAt m).desc) :
    Evolves may set later := by
  have methodAt : later.methodAt = set.methodAt := by
    funext id
    rw [ClassSet.methodAt, methodsSame]
    rfl
  have fieldAt : later.fieldAt = set.fieldAt := by
    funext id
    rw [ClassSet.fieldAt, fieldsSame]
    rfl
  have hasMethod : later.HasMethod = set.HasMethod := by
    funext id
    rw [HasMethod, methodsSame]
    rfl
  have hasField : later.HasField = set.HasField := by
    funext id
    rw [HasField, fieldsSame]
    rfl
  constructor
  case hasClass => exact hasClass
  case hasMethod => exact fun id h => by rwa [hasMethod]
  case hasField => exact fun id h => by rwa [hasField]
  case names => exact names
  case lists => exact lists
  case field => exact fun id _ => by rw [fieldAt]; exact ⟨rfl, rfl⟩
  case signature => exact fun id _ => by rw [methodAt]; exact ⟨rfl, rfl, rfl, rfl⟩
  case access => exact fun id _ _ => by rw [methodAt]
  case code => exact fun id _ _ => by rw [methodAt]
  case wellFormed =>
    intro h
    constructor
    · intro cls m member
      rw [hasMethod, methodAt]
      rcases methods cls m member with old | new
      · exact h.methods cls m old
      · exact new
    · intro cls f member
      rw [hasField, fieldAt]
      rcases fields cls f member with old | new
      · exact h.fields cls f old
      · exact new
    · intro cls m member
      rw [hasMethod]
      rcases views cls m member with old | new
      · exact h.views cls m old
      · exact new
  case declares =>
    rintro h cls name desc not ⟨m, member, rfl, rfl⟩
    rcases kept cls m member with stays | dropped
    · exact ⟨m, stays, by rw [methodAt], by rw [methodAt]⟩
    · exact absurd dropped not

theorem addClass (may : Permit) (set : ClassSet) {c : ClassEntry} (noMethods : c.methods = [])
    (noFields : c.fields = []) (noView : c.view = []) : Evolves may set (set.addClass c) := by
  have old : ∀ id, set.HasClass id → (set.addClass c).classAt id = set.classAt id :=
    fun id h => set.classAt_addClass_of_known c h
  have lists : ∀ id, (set.addClass c).classAt id = set.classAt id ∨
      (set.addClass c).classAt id = c ∨ (set.addClass c).classAt id = default := by
    intro id
    by_cases known : set.HasClass id
    · exact .inl (old id known)
    · right
      simp only [classAt, ClassSet.addClass, Array.getElem?_push]
      split
      · exact .inl rfl
      · rw [Array.getElem?_eq_none (Nat.not_lt.1 known)]
        exact .inr rfl
  refine ofClasses rfl rfl (fun _ => set.hasClass_addClass c) (fun id h => by rw [old id h])
    (fun id h _ => by rw [old id h]; exact ⟨rfl, rfl, rfl⟩) (fun cls m member => ?_)
    (fun cls f member => ?_) (fun cls m member => ?_) (fun cls m member => ?_)
  · rcases lists cls with same | new | none
    · exact .inl (same ▸ member)
    · rw [new, noMethods] at member
      cases member
    · rw [none] at member
      cases member
  · rcases lists cls with same | new | none
    · exact .inl (same ▸ member)
    · rw [new, noFields] at member
      cases member
    · rw [none] at member
      cases member
  · rcases lists cls with same | new | none
    · exact .inl (same ▸ member)
    · rw [new, noView] at member
      cases member
    · rw [none] at member
      cases member
  · by_cases known : set.HasClass cls
    · rw [old cls known]
      exact .inl member
    · rw [classAt, Array.getElem?_eq_none (Nat.not_lt.1 known)] at member
      cases member

/-- A modification of a class entry, seen at any class. -/
theorem classAt_modifyClass_cases (set : ClassSet) (id : ClassId) (f : ClassEntry → ClassEntry)
    (other : ClassId) :
    (set.modifyClass id f).classAt other = set.classAt other ∨
      other = id ∧ (set.modifyClass id f).classAt other = f (set.classAt other) := by
  by_cases same : other = id
  · subst same
    by_cases known : set.HasClass other
    · exact .inr ⟨rfl, set.classAt_modifyClass_self f known⟩
    · left
      simp only [classAt, ClassSet.modifyClass, Array.getElem?_modify]
      rw [Array.getElem?_eq_none (Nat.not_lt.1 known)]
      simp
  · exact .inl (set.classAt_modifyClass_of_ne f same)

theorem modifyClass {id : ClassId} {f : ClassEntry → ClassEntry} (permitted : may.cls id)
    (set : ClassSet) (sameName : ∀ c, (f c).name = c.name)
    (methods : ∀ c : ClassEntry, ∀ m ∈ (f c).methods,
      m ∈ c.methods ∨ set.HasMethod m ∧ (set.methodAt m).declaredBy = id)
    (fields : ∀ c : ClassEntry, ∀ x ∈ (f c).fields,
      x ∈ c.fields ∨ set.HasField x ∧ (set.fieldAt x).declaredBy = id)
    (views : ∀ c : ClassEntry, ∀ m ∈ (f c).view, m ∈ c.view ∨ set.HasMethod m)
    (kept : ∀ c : ClassEntry, ∀ m ∈ c.methods, m ∈ (f c).methods) :
    Evolves may set (set.modifyClass id f) := by
  refine ofClasses rfl rfl (fun other => (set.hasClass_modifyClass id other f).2)
    (fun other _ => set.classAt_modifyClass_same (·.name) sameName id other)
    (fun other _ not => ?_) (fun other m member => ?_) (fun other x member => ?_)
    (fun other m member => ?_) (fun other m member => ?_)
  · have different : other ≠ id := by
      rintro rfl
      exact not permitted
    rw [set.classAt_modifyClass_of_ne f different]
    exact ⟨rfl, rfl, rfl⟩
  all_goals
    rcases classAt_modifyClass_cases set id f other with same | ⟨rfl, changed⟩
  · exact .inl (same ▸ member)
  · exact methods _ m (changed ▸ member)
  · exact .inl (same ▸ member)
  · exact fields _ x (changed ▸ member)
  · exact .inl (same ▸ member)
  · exact views _ m (changed ▸ member)
  · exact .inl (same ▸ member)
  · exact .inl (changed ▸ kept _ m member)

/-- The header of a class changes, but for its name. -/
theorem modifyHeader {id : ClassId} {f : ClassEntry → ClassEntry} (permitted : may.cls id)
    (set : ClassSet) (sameName : ∀ c, (f c).name = c.name)
    (same : ∀ c, (f c).methods = c.methods ∧ (f c).fields = c.fields ∧ (f c).view = c.view) :
    Evolves may set (set.modifyClass id f) := by
  refine modifyClass permitted set sameName (fun c m h => .inl ?_) (fun c x h => .inl ?_)
    (fun c m h => .inl ?_) (fun c m h => ?_)
  · rwa [← (same c).1]
  · rwa [← (same c).2.1]
  · rwa [← (same c).2.2]
  · rwa [(same c).1]

/-- Views and marks of classes may change anywhere. -/
theorem modifyClass_of_sameLists {f : ClassEntry → ClassEntry} (may : Permit) (set : ClassSet)
    (id : ClassId) (same : ∀ c, SameLists c (f c))
    (views : ∀ c : ClassEntry, ∀ m ∈ (f c).view, m ∈ c.view ∨ set.HasMethod m) :
    Evolves may set (set.modifyClass id f) := by
  refine ofClasses rfl rfl (fun other => (set.hasClass_modifyClass id other f).2)
    (fun other _ => set.classAt_modifyClass_same (·.name)
      (fun c => congrArg ClassHeader.name (same c).1) id other)
    (fun other _ _ =>
      ⟨set.classAt_modifyClass_same (·.toClassHeader) (fun c => (same c).1) id other,
        set.classAt_modifyClass_same (·.fields) (fun c => (same c).2.1) id other,
        set.classAt_modifyClass_same (·.methods) (fun c => (same c).2.2) id other⟩)
    (fun other m member => ?_) (fun other x member => ?_) (fun other m member => ?_)
    (fun other m member => ?_)
  · exact .inl (set.classAt_modifyClass_same (·.methods) (fun c => (same c).2.2) id other ▸ member)
  · exact .inl (set.classAt_modifyClass_same (·.fields) (fun c => (same c).2.1) id other ▸ member)
  · rcases classAt_modifyClass_cases set id f other with same | ⟨rfl, changed⟩
    · exact .inl (same ▸ member)
    · exact views _ m (changed ▸ member)
  · left
    rwa [set.classAt_modifyClass_same (·.methods) (fun c => (same c).2.2) id other]

/-- A change of one method that keeps its signature. -/
theorem modifyMethod {id : MethodId} {f : MethodEntry → MethodEntry}
    (signature : ∀ m, (f m).name = m.name ∧ (f m).desc = m.desc ∧ (f m).exceptions = m.exceptions ∧
      (f m).declaredBy = m.declaredBy)
    (access : (∀ m, (f m).access = m.access) ∨ may.access id)
    (code : (∀ m, (f m).code = m.code) ∨ may.code id) (set : ClassSet) :
    Evolves may set (set.modifyMethod id f) := by
  have name := set.methodAt_modifyMethod_same (·.name) (fun m => (signature m).1) id
  have desc := set.methodAt_modifyMethod_same (·.desc) (fun m => (signature m).2.1) id
  have owner := set.methodAt_modifyMethod_same (·.declaredBy) (fun m => (signature m).2.2.2) id
  constructor
  case hasClass => exact fun _ h => h
  case hasMethod => exact fun other h => (set.hasMethod_modifyMethod id other f).2 h
  case hasField => exact fun _ h => h
  case names => exact fun _ _ => rfl
  case lists => exact fun _ _ _ => ⟨rfl, rfl, rfl⟩
  case field => exact fun _ _ => ⟨rfl, rfl⟩
  case signature =>
    exact fun other _ => ⟨name other, desc other,
      set.methodAt_modifyMethod_same (·.exceptions) (fun m => (signature m).2.2.1) id other,
      owner other⟩
  case access =>
    intro other _ not
    rcases access with same | permitted
    · exact set.methodAt_modifyMethod_same (·.access) same id other
    · have different : other ≠ id := by
        rintro rfl
        exact not permitted
      rw [set.methodAt_modifyMethod_of_ne f different]
  case code =>
    intro other _ not
    rcases code with same | permitted
    · exact set.methodAt_modifyMethod_same (·.code) same id other
    · have different : other ≠ id := by
        rintro rfl
        exact not permitted
      rw [set.methodAt_modifyMethod_of_ne f different]
  case wellFormed =>
    intro h
    refine ⟨fun cls m member => ?_, h.fields, fun cls m member => ?_⟩
    · rw [set.hasMethod_modifyMethod, owner]
      exact h.methods cls m member
    · exact (set.hasMethod_modifyMethod id m f).2 (h.views cls m member)
  case declares =>
    rintro h cls _ _ - ⟨m, member, rfl, rfl⟩
    exact ⟨m, member, name m, desc m⟩

/-- A change of one field that keeps its declaration. -/
theorem modifyField {f : FieldEntry → FieldEntry} (same : ∀ m, (f m).toFieldDecl = m.toFieldDecl)
    (owner : ∀ m, (f m).declaredBy = m.declaredBy) (may : Permit) (set : ClassSet) (id : FieldId) :
    Evolves may set (set.modifyField id f) := by
  have owners := set.fieldAt_modifyField_same (·.declaredBy) owner id
  constructor
  case hasClass => exact fun _ h => h
  case hasMethod => exact fun _ h => h
  case hasField => exact fun other h => (set.hasField_modifyField id other f).2 h
  case names => exact fun _ _ => rfl
  case lists => exact fun _ _ _ => ⟨rfl, rfl, rfl⟩
  case field =>
    exact fun other _ => ⟨set.fieldAt_modifyField_same (·.toFieldDecl) same id other, owners other⟩
  case signature => exact fun _ _ => ⟨rfl, rfl, rfl, rfl⟩
  case access => exact fun _ _ _ => rfl
  case code => exact fun _ _ _ => rfl
  case wellFormed =>
    intro h
    refine ⟨h.methods, fun cls x member => ?_, h.views⟩
    rw [set.hasField_modifyField, owners]
    exact h.fields cls x member
  case declares => exact fun _ _ _ _ _ h => h

theorem pushMethod (may : Permit) (set : ClassSet) (m : MethodEntry) :
    Evolves may set { set with methods := set.methods.push m } := by
  have old : ∀ id, set.HasMethod id →
      ({ set with methods := set.methods.push m } : ClassSet).methodAt id = set.methodAt id := by
    intro id known
    simp only [methodAt]
    rw [Array.getElem?_push_lt known, Array.getElem?_eq_getElem known]
  have known : ∀ id, set.HasMethod id →
      ({ set with methods := set.methods.push m } : ClassSet).HasMethod id := by
    intro id h
    simp only [HasMethod, Array.size_push] at *
    omega
  constructor
  case hasClass => exact fun _ h => h
  case hasMethod => exact known
  case hasField => exact fun _ h => h
  case names => exact fun _ _ => rfl
  case lists => exact fun _ _ _ => ⟨rfl, rfl, rfl⟩
  case field => exact fun _ _ => ⟨rfl, rfl⟩
  case signature => exact fun id h => by rw [old id h]; exact ⟨rfl, rfl, rfl, rfl⟩
  case access => exact fun id h _ => by rw [old id h]
  case code => exact fun id h _ => by rw [old id h]
  case wellFormed =>
    intro h
    refine ⟨fun cls x member => ?_, h.fields, fun cls x member => known x (h.views cls x member)⟩
    obtain ⟨has, owner⟩ := h.methods cls x member
    exact ⟨known x has, by rw [old x has, owner]⟩
  case declares =>
    rintro h cls _ _ - ⟨x, member, rfl, rfl⟩
    have has := (h.methods cls x member).1
    exact ⟨x, member, by rw [old x has], by rw [old x has]⟩

theorem pushField (may : Permit) (set : ClassSet) (f : FieldEntry) :
    Evolves may set { set with fields := set.fields.push f } := by
  have old : ∀ id, set.HasField id →
      ({ set with fields := set.fields.push f } : ClassSet).fieldAt id = set.fieldAt id := by
    intro id known
    simp only [fieldAt]
    rw [Array.getElem?_push_lt known, Array.getElem?_eq_getElem known]
  have known : ∀ id, set.HasField id →
      ({ set with fields := set.fields.push f } : ClassSet).HasField id := by
    intro id h
    simp only [HasField, Array.size_push] at *
    omega
  constructor
  case hasClass => exact fun _ h => h
  case hasMethod => exact fun _ h => h
  case hasField => exact known
  case names => exact fun _ _ => rfl
  case lists => exact fun _ _ _ => ⟨rfl, rfl, rfl⟩
  case field => exact fun id h => by rw [old id h]; exact ⟨rfl, rfl⟩
  case signature => exact fun _ _ => ⟨rfl, rfl, rfl, rfl⟩
  case access => exact fun _ _ _ => rfl
  case code => exact fun _ _ _ => rfl
  case wellFormed =>
    intro h
    refine ⟨h.methods, fun cls x member => ?_, h.views⟩
    obtain ⟨has, owner⟩ := h.fields cls x member
    exact ⟨known x has, by rw [old x has, owner]⟩
  case declares => exact fun _ _ _ _ _ h => h

theorem addMethod {id : ClassId} (permitted : may.cls id) (set : ClassSet) (m : MethodDecl)
    (hidden : Bool) : Evolves may set (set.addMethod id m hidden) := by
  let entry : MethodEntry := { m with declaredBy := id, owners := [id], hidden := hidden }
  let added : ClassSet := { set with methods := set.methods.push entry }
  have isNew : added.HasMethod set.nextMethod ∧
      (added.methodAt set.nextMethod).declaredBy = id := by
    simp [HasMethod, methodAt, nextMethod, added, entry]
  refine (pushMethod may set entry).trans (modifyClass permitted added ?_ ?_ ?_ ?_ ?_)
  · exact fun c => rfl
  · intro c x member
    rcases List.mem_append.1 member with old | new
    · exact .inl old
    · exact .inr (List.mem_singleton.1 new ▸ isNew)
  · exact fun c x member => .inl member
  · intro c x member
    rcases List.mem_append.1 member with old | new
    · exact .inl old
    · exact .inr (List.mem_singleton.1 new ▸ isNew.1)
  · exact fun c x member => List.mem_append_left _ member

theorem addField {id : ClassId} (permitted : may.cls id) (set : ClassSet) (f : FieldDecl)
    (hidden : Bool) : Evolves may set (set.addField id f hidden) := by
  let entry : FieldEntry := { f with declaredBy := id, owners := [id], hidden := hidden }
  let added : ClassSet := { set with fields := set.fields.push entry }
  have isNew : added.HasField set.nextField ∧ (added.fieldAt set.nextField).declaredBy = id := by
    simp [HasField, fieldAt, nextField, added, entry]
  refine (pushField may set entry).trans (modifyClass permitted added ?_ ?_ ?_ ?_ ?_)
  · exact fun c => rfl
  · exact fun c x member => .inl member
  · intro c x member
    rcases List.mem_append.1 member with old | new
    · exact .inl old
    · exact .inr (List.mem_singleton.1 new ▸ isNew)
  · exact fun c x member => .inl member
  · exact fun c x member => member

theorem hideField (may : Permit) (set : ClassSet) (id : FieldId) :
    Evolves may set (set.modifyField id fun f => { f with hidden := true }) := by
  refine modifyField ?_ ?_ may set id
  · exact fun f => rfl
  · exact fun f => rfl

theorem hideMethod (may : Permit) (set : ClassSet) (id : MethodId) :
    Evolves may set (set.modifyMethod id fun m => { m with hidden := true }) := by
  refine modifyMethod ?_ (.inl ?_) (.inl ?_) set
  · exact fun m => ⟨rfl, rfl, rfl, rfl⟩
  · exact fun m => rfl
  · exact fun m => rfl

theorem removeField {id : FieldId} (set : ClassSet)
    (permitted : may.cls (set.fieldAt id).declaredBy) : Evolves may set (set.removeField id) := by
  refine (hideField may set id).trans (modifyClass ?_ _ ?_ ?_ ?_ ?_ ?_)
  · have owner := set.fieldAt_modifyField_same (·.declaredBy)
      (f := fun f => { f with hidden := true }) (fun _ => rfl) id id
    rw [owner]
    exact permitted
  · exact fun c => rfl
  · exact fun c m member => .inl member
  · exact fun c x member => .inl ((List.mem_filter.1 member).1)
  · exact fun c m member => .inl member
  · exact fun c m member => member

/-- A method is removed from the classes that list it. -/
theorem removeMethod {id : MethodId} (set : ClassSet)
    (permitted : ∀ cls, id ∈ (set.classAt cls).methods →
      may.cls cls ∧ may.drop cls (set.methodAt id).name (set.methodAt id).desc) :
    Evolves may set (set.removeMethod id) := by
  refine (hideMethod may set id).trans ?_
  have entry : ∀ cls, set.HasClass cls → (set.removeMethod id).classAt cls =
      { set.classAt cls with
        methods := (set.classAt cls).methods.filter (· != id)
        view := (set.classAt cls).view.filter (· != id) } := by
    intro cls known
    simp only [classAt, ClassSet.removeMethod, ClassSet.modifyMethod, Array.getElem?_map,
      Array.getElem?_eq_getElem known, Option.map_some, Option.getD_some]
  have other : ∀ cls, ¬set.HasClass cls → (set.removeMethod id).classAt cls = set.classAt cls := by
    intro cls unknown
    simp only [classAt, ClassSet.removeMethod, ClassSet.modifyMethod, Array.getElem?_map,
      Array.getElem?_eq_none (Nat.not_lt.1 unknown), Option.map_none]
  refine ofClasses rfl rfl (fun cls h => ?_) (fun cls h => ?_) (fun cls h not => ?_)
    (fun cls m member => .inl ?_) (fun cls m member => .inl ?_) (fun cls m member => .inl ?_)
    (fun cls m member => ?_)
  · simpa [HasClass, ClassSet.removeMethod, ClassSet.modifyMethod] using h
  · exact congrArg (·.name) (entry cls h)
  · rw [entry cls h]
    refine ⟨rfl, rfl, List.filter_eq_self.2 fun m member => ?_⟩
    have : m ≠ id := fun same => not (permitted cls (same ▸ member)).1
    simpa using this
  all_goals by_cases known : set.HasClass cls
  · rw [entry cls known] at member
    exact (List.mem_filter.1 member).1
  · rwa [other cls known] at member
  · rwa [entry cls known] at member
  · rwa [other cls known] at member
  · rw [entry cls known] at member
    exact (List.mem_filter.1 member).1
  · rwa [other cls known] at member
  · rw [entry cls known]
    by_cases same : m = id
    · right
      rw [set.methodAt_modifyMethod_same (f := fun m => { m with hidden := true }) (·.name)
          (fun _ => rfl) id m,
        set.methodAt_modifyMethod_same (f := fun m => { m with hidden := true }) (·.desc)
          (fun _ => rfl) id m, same]
      exact (permitted cls (same ▸ member)).2
    · exact .inl (List.mem_filter.2 ⟨member, by simpa using same⟩)
  · left
    rwa [other cls known]

end Evolves

section Adding

variable (set : ClassSet)

theorem classAt_addClass_cases (c : ClassEntry) (id : ClassId) :
    (set.addClass c).classAt id = set.classAt id ∨ ¬set.HasClass id ∧
      (set.addClass c).classAt id = c := by
  by_cases known : set.HasClass id
  · exact .inl (set.classAt_addClass_of_known c known)
  · by_cases new : id.index = set.classes.size
    · right
      simp [known, classAt, addClass, new]
    · left
      have beyond : (set.classes.push c).size ≤ id.index := by
        rw [Array.size_push]
        have := Nat.lt_of_le_of_ne (Nat.le_of_not_lt known) (Ne.symm new)
        omega
      rw [classAt, classAt, addClass, Array.getElem?_eq_none beyond,
        Array.getElem?_eq_none (Nat.le_of_not_lt known)]

theorem classAt_addMethod_cases (id : ClassId) (m : MethodDecl) (hidden : Bool) (cls : ClassId) :
    (set.addMethod id m hidden).classAt cls = set.classAt cls ∨
      cls = id ∧ (set.addMethod id m hidden).classAt cls =
        { set.classAt cls with
          methods := (set.classAt cls).methods ++ [set.nextMethod]
          view := (set.classAt cls).view ++ [set.nextMethod] } :=
  let entry : MethodEntry := { m with declaredBy := id, owners := [id], hidden := hidden }
  Evolves.classAt_modifyClass_cases { set with methods := set.methods.push entry } id _ cls

theorem classAt_addField_cases (id : ClassId) (f : FieldDecl) (hidden : Bool) (cls : ClassId) :
    (set.addField id f hidden).classAt cls = set.classAt cls ∨
      cls = id ∧ (set.addField id f hidden).classAt cls =
        { set.classAt cls with fields := (set.classAt cls).fields ++ [set.nextField] } :=
  let entry : FieldEntry := { f with declaredBy := id, owners := [id], hidden := hidden }
  Evolves.classAt_modifyClass_cases { set with fields := set.fields.push entry } id _ cls

theorem methodAt_addMethod (id : ClassId) (m : MethodDecl) (hidden : Bool) (x : MethodId) :
    (set.addMethod id m hidden).methodAt x =
      if x = set.nextMethod then { m with declaredBy := id, owners := [id], hidden := hidden }
        else set.methodAt x := by
  obtain ⟨index⟩ := x
  simp only [methodAt, addMethod, modifyClass, nextMethod, Array.getElem?_push, MethodId.mk.injEq]
  split
  · rfl
  · rfl

theorem fieldAt_addField (id : ClassId) (f : FieldDecl) (hidden : Bool) (x : FieldId) :
    (set.addField id f hidden).fieldAt x =
      if x = set.nextField then { f with declaredBy := id, owners := [id], hidden := hidden }
        else set.fieldAt x := by
  obtain ⟨index⟩ := x
  simp only [fieldAt, addField, modifyClass, nextField, Array.getElem?_push, FieldId.mk.injEq]
  split
  · rfl
  · rfl

end Adding

end ClassSet

end JvmPatch
