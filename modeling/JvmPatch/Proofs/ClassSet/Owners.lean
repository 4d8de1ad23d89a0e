import JvmPatch.Proofs.ClassSet.Sharing

/-! The owners of a member. A class becomes an owner when it has the member at hand, and it stays
one. So the owners of a member are classes that have something of its name and descriptor, as long
as no class loses what it had. -/

set_option autoImplicit false

namespace JvmPatch.ClassSet

variable {base set later latest : ClassSet}

/-- A class is another one, or an ancestor of it by the names of supertypes. -/
def Upward (set : ClassSet) (cls id : ClassId) : Prop := id = cls ∨ set.Above [] cls id

/-- A class declares or inherits a method of a name and a descriptor. -/
def Offers (set : ClassSet) (cls : ClassId) (s : String × String) : Prop :=
  ∃ id, set.Upward cls id ∧ ∃ m ∈ (set.classAt id).methods, set.signature m = s

/-- A class declares or inherits a field of a name and a descriptor. -/
def OffersField (set : ClassSet) (cls : ClassId) (s : String × String) : Prop :=
  ∃ id, set.Upward cls id ∧ ∃ f ∈ (set.classAt id).fields, set.fieldSignature f = s

/-- Every class still declares or inherits members of the names and descriptors that it had. -/
structure Retains (set later : ClassSet) : Prop where
  methods : ∀ cls s, set.Offers cls s → later.Offers cls s
  fields : ∀ cls s, set.OffersField cls s → later.OffersField cls s

/-- A method has not been removed: its class declares it. -/
def Stands (set : ClassSet) (m : MethodId) : Prop :=
  m ∈ (set.classAt (set.methodAt m).declaredBy).methods

instance (set : ClassSet) (m : MethodId) : Decidable (set.Stands m) :=
  inferInstanceAs (Decidable (m ∈ (set.classAt (set.methodAt m).declaredBy).methods))

/-- A field has not been removed: its class declares it. -/
def StandsField (set : ClassSet) (f : FieldId) : Prop :=
  f ∈ (set.classAt (set.fieldAt f).declaredBy).fields

instance (set : ClassSet) (f : FieldId) : Decidable (set.StandsField f) :=
  inferInstanceAs (Decidable (f ∈ (set.classAt (set.fieldAt f).declaredBy).fields))

/-- The owners of the members that stand, and the classes that show a method, have a member of that
name and descriptor. -/
structure Accurate (set : ClassSet) : Prop where
  wellFormed : set.WellFormed
  standing : ∀ id, ∀ m ∈ (set.classAt id).view, set.Stands m
  shown : ∀ id, ∀ m ∈ (set.classAt id).view, set.Offers id (set.signature m)
  methods : ∀ m, set.Stands m → ∀ o ∈ (set.methodAt m).owners, set.Offers o (set.signature m)
  fields : ∀ f, set.StandsField f → ∀ o ∈ (set.fieldAt f).owners,
    set.OffersField o (set.fieldSignature f)

/-- New members own themselves, and what is shown is what has been shown or what the class
declares. -/
structure Carries (set later : ClassSet) : Prop where
  standing : ∀ id, ∀ m ∈ (later.classAt id).view, later.Stands m
  views : ∀ id, ∀ m ∈ (later.classAt id).view, m ∈ (set.classAt id).view ∨
    (later.methodAt m).declaredBy = id
  methods : ∀ m, later.Stands m → set.Stands m ∨ ¬set.HasMethod m
  owners : ∀ m, ∀ o ∈ (later.methodAt m).owners, o ∈ (set.methodAt m).owners ∨
    o = (later.methodAt m).declaredBy
  fields : ∀ f, later.StandsField f → set.StandsField f ∨ ¬set.HasField f
  fieldOwners : ∀ f, ∀ o ∈ (later.fieldAt f).owners, o ∈ (set.fieldAt f).owners ∨
    o = (later.fieldAt f).declaredBy

theorem Stands.offers {m : MethodId} (stands : set.Stands m) :
    set.Offers (set.methodAt m).declaredBy (set.signature m) :=
  ⟨_, .inl rfl, m, stands, rfl⟩

theorem StandsField.offers {f : FieldId} (stands : set.StandsField f) :
    set.OffersField (set.fieldAt f).declaredBy (set.fieldSignature f) :=
  ⟨_, .inl rfl, f, stands, rfl⟩

theorem Upward.trans {cls id other : ClassId} (first : set.Upward cls id)
    (second : set.Upward id other) :
    set.Upward cls other := by
  rcases second with rfl | ⟨name, reached, found⟩
  · exact first
  · right
    refine ⟨name, ?_, found⟩
    rcases first with rfl | ⟨between, before, isFound⟩
    · exact reached
    · exact reached.mono (fun _ h => h) fun start member free => .above before isFound member free

theorem Offers.upward {cls id : ClassId} {s : String × String} (offers : set.Offers id s)
    (upward : set.Upward cls id) :
    set.Offers cls s := by
  obtain ⟨other, more, declared⟩ := offers
  exact ⟨other, upward.trans more, declared⟩

theorem OffersField.upward {cls id : ClassId} {s : String × String} (offers : set.OffersField id s)
    (upward : set.Upward cls id) : set.OffersField cls s := by
  obtain ⟨other, more, declared⟩ := offers
  exact ⟨other, upward.trans more, declared⟩

/-- Names stand for the classes that they stood for, and classes have the supertypes that they
had. -/
structure Climbs (set later : ClassSet) : Prop where
  find? : ∀ name id, set.find? name = some id → later.find? name = some id
  supertypes : ∀ id, (set.classAt id).supertypes ⊆ (later.classAt id).supertypes

namespace Climbs

theorem reached (climbs : Climbs set later) {names : List String} {name : String}
    (reached : set.Reached [] names name) :
    later.Reached [] names name := by
  induction reached with
  | named member free => exact .named member free
  | above _ found supertype free ih =>
    exact .above ih (climbs.find? _ _ found) (climbs.supertypes _ supertype) free

theorem above (climbs : Climbs set later) {cls id : ClassId} (above : set.Above [] cls id) :
    later.Above [] cls id := by
  obtain ⟨name, reached, found⟩ := above
  refine ⟨name, ?_, climbs.find? name id found⟩
  exact (climbs.reached reached).mono (fun _ h => h) fun start member free =>
    .named (climbs.supertypes cls member) free

theorem upward (climbs : Climbs set later) {cls id : ClassId} (upward : set.Upward cls id) :
    later.Upward cls id :=
  upward.imp (fun same => same) climbs.above

theorem retains (climbs : Climbs set later)
    (methods : ∀ id, ∀ m ∈ (set.classAt id).methods, m ∈ (later.classAt id).methods ∧
      later.signature m = set.signature m)
    (fields : ∀ id, ∀ f ∈ (set.classAt id).fields,
      f ∈ (later.classAt id).fields ∧ later.fieldSignature f = set.fieldSignature f) :
        Retains set later := by
  constructor
  · rintro cls s ⟨id, up, m, member, isSignature⟩
    obtain ⟨member, same⟩ := methods id m member
    exact ⟨id, climbs.upward up, m, member, same.trans isSignature⟩
  · rintro cls s ⟨id, up, f, member, isSignature⟩
    obtain ⟨member, same⟩ := fields id f member
    exact ⟨id, climbs.upward up, f, member, same.trans isSignature⟩

end Climbs

/-- What carries all over from an accurate set, and loses nothing that a class had, is accurate. -/
theorem Accurate.carried {may : Permit} (accurate : set.Accurate) (evolves : Evolves may set later)
    (retains : Retains set later) (carries : Carries set later) : later.Accurate := by
  have formed := accurate.wellFormed
  have signature {m : MethodId} (known : set.HasMethod m) :
      later.signature m = set.signature m := by
    obtain ⟨name, desc, -⟩ := evolves.signature m known
    rw [ClassSet.signature, name, desc, ClassSet.signature]
  have fieldSignature {f : FieldId} (known : set.HasField f) :
      later.fieldSignature f = set.fieldSignature f := by
    have same := congrArg (fun d => (d.name, d.desc)) (evolves.field f known).1
    exact same
  constructor
  case wellFormed => exact evolves.wellFormed formed
  case standing => exact carries.standing
  case shown =>
    intro id m member
    rcases carries.views id m member with old | rfl
    · rw [signature (formed.views id m old)]
      exact retains.methods id _ (accurate.shown id m old)
    · exact (carries.standing _ m member).offers
  case methods =>
    intro m stands o owner
    rcases carries.owners m o owner with old | rfl
    · rcases carries.methods m stands with stood | unknown
      · rw [signature (formed.methods _ m stood).1]
        exact retains.methods o _ (accurate.methods m stood o old)
      · rw [methodAt, Array.getElem?_eq_none (Nat.le_of_not_lt unknown)] at old
        cases old
    · exact stands.offers
  case fields =>
    intro f stands o owner
    rcases carries.fieldOwners f o owner with old | rfl
    · rcases carries.fields f stands with stood | unknown
      · rw [fieldSignature (formed.fields _ f stood).1]
        exact retains.fields o _ (accurate.fields f stood o old)
      · rw [fieldAt, Array.getElem?_eq_none (Nat.le_of_not_lt unknown)] at old
        cases old
    · exact stands.offers

namespace Carries

/-- Members leave their classes, and with them all views. -/
theorem of_subset (standing : ∀ id, ∀ m ∈ (set.classAt id).view, set.Stands m)
    (sameMethods : ∀ m, (later.methodAt m).owners = (set.methodAt m).owners ∧
      (later.methodAt m).declaredBy = (set.methodAt m).declaredBy)
    (sameFields : ∀ f, (later.fieldAt f).owners = (set.fieldAt f).owners ∧
      (later.fieldAt f).declaredBy = (set.fieldAt f).declaredBy)
    (methods : ∀ id, (later.classAt id).methods ⊆ (set.classAt id).methods)
    (fields : ∀ id, (later.classAt id).fields ⊆ (set.classAt id).fields)
    (views : ∀ id, (later.classAt id).view ⊆ (set.classAt id).view)
    (kept : ∀ id, ∀ m ∈ (later.classAt id).view, ∀ cls, m ∈ (set.classAt cls).methods →
      m ∈ (later.classAt cls).methods) :
    Carries set later := by
  constructor
  case standing =>
    intro id m member
    rw [Stands, (sameMethods m).2]
    exact kept id m member _ (standing id m (views id member))
  case views => exact fun id m member => .inl (views id member)
  case methods =>
    intro m stands
    rw [Stands, (sameMethods m).2] at stands
    exact .inl (methods _ stands)
  case owners => exact fun m o owner => .inl ((sameMethods m).1 ▸ owner)
  case fields =>
    intro f stands
    rw [StandsField, (sameFields f).2] at stands
    exact .inl (fields _ stands)
  case fieldOwners => exact fun f o owner => .inl ((sameFields f).1 ▸ owner)

theorem trans {may : Permit} (first : Carries set later) (second : Carries later latest)
    (formed : later.WellFormed) (before : Evolves may set later)
    (evolves : Evolves may later latest) :
    Carries set latest := by
  have declaredBy {m : MethodId} (known : later.HasMethod m) :
      (latest.methodAt m).declaredBy = (later.methodAt m).declaredBy :=
        (evolves.signature m known).2.2.2
  constructor
  case standing => exact second.standing
  case views =>
    intro id m member
    rcases second.views id m member with old | new
    · exact (first.views id m old).imp (fun h => h) fun same =>
        (declaredBy (formed.views id m old)).trans same
    · exact .inr new
  case methods =>
    intro m stands
    rcases second.methods m stands with stood | unknown
    · exact first.methods m stood
    · exact .inr fun known => unknown (before.hasMethod m known)
  case owners =>
    intro m o owner
    rcases second.owners m o owner with old | new
    · have known : later.HasMethod m := by
        refine Nat.lt_of_not_le fun outside => ?_
        rw [methodAt, Array.getElem?_eq_none outside] at old
        cases old
      exact (first.owners m o old).imp (fun h => h) fun same => same.trans (declaredBy known).symm
    · exact .inr new
  case fields =>
    intro f stands
    rcases second.fields f stands with stood | unknown
    · exact first.fields f stood
    · exact .inr fun known => unknown (before.hasField f known)
  case fieldOwners =>
    intro f o owner
    rcases second.fieldOwners f o owner with old | new
    · have known : later.HasField f := by
        refine Nat.lt_of_not_le fun outside => ?_
        rw [fieldAt, Array.getElem?_eq_none outside] at old
        cases old
      exact (first.fieldOwners f o old).imp (fun h => h) fun same =>
        same.trans (evolves.field f known).2.symm
    · exact .inr new

variable (standing : ∀ id, ∀ m ∈ (set.classAt id).view, set.Stands m)
include standing

theorem refl : Carries set set :=
  of_subset standing (fun _ => ⟨rfl, rfl⟩) (fun _ => ⟨rfl, rfl⟩) (fun _ _ h => h) (fun _ _ h => h)
    (fun _ _ h => h)
    fun _ _ _ _ h => h

theorem addClass {c : ClassEntry} (methods : c.methods = []) (fields : c.fields = [])
    (view : c.view = []) :
    Carries set (set.addClass c) := by
  have entry (id : ClassId) : ((set.addClass c).classAt id).methods = (set.classAt id).methods ∧
      ((set.addClass c).classAt id).fields = (set.classAt id).fields ∧
      ((set.addClass c).classAt id).view = (set.classAt id).view := by
    rcases set.classAt_addClass_cases c id with same | ⟨unknown, new⟩
    · rw [same]
      exact ⟨rfl, rfl, rfl⟩
    · rw [new, classAt_of_unknown unknown]
      exact ⟨methods, fields, view⟩
  exact of_subset standing (fun _ => ⟨rfl, rfl⟩) (fun _ => ⟨rfl, rfl⟩)
    (fun id => (entry id).1 ▸ fun _ h => h)
    (fun id => (entry id).2.1 ▸ fun _ h => h) (fun id => (entry id).2.2 ▸ fun _ h => h)
    fun _ _ _ cls member => (entry cls).1 ▸ member

theorem modifyClass (id : ClassId) {f : ClassEntry → ClassEntry}
    (same : ∀ c, (f c).methods = c.methods ∧ (f c).fields = c.fields ∧ (f c).view = c.view) :
    Carries set (set.modifyClass id f) := by
  have methods := set.classAt_modifyClass_same (·.methods) (fun c => (same c).1) id
  have fields := set.classAt_modifyClass_same (·.fields) (fun c => (same c).2.1) id
  have view := set.classAt_modifyClass_same (·.view) (fun c => (same c).2.2) id
  exact of_subset standing (fun _ => ⟨rfl, rfl⟩) (fun _ => ⟨rfl, rfl⟩)
    (fun cls => methods cls ▸ fun _ h => h)
    (fun cls => fields cls ▸ fun _ h => h) (fun cls => view cls ▸ fun _ h => h)
    fun _ _ _ cls member => methods cls ▸ member

theorem modifyMethod (id : MethodId) {f : MethodEntry → MethodEntry}
    (same : ∀ m, (f m).owners = m.owners ∧ (f m).declaredBy = m.declaredBy) :
    Carries set (set.modifyMethod id f) :=
  of_subset standing
    (fun m => ⟨set.methodAt_modifyMethod_same (·.owners) (fun m => (same m).1) id m,
      set.methodAt_modifyMethod_same (·.declaredBy) (fun m => (same m).2) id m⟩)
    (fun _ => ⟨rfl, rfl⟩) (fun _ _ h => h) (fun _ _ h => h) (fun _ _ h => h) fun _ _ _ _ h => h

theorem addMethod (formed : set.WellFormed) (id : ClassId) (m : MethodDecl) (hidden : Bool) :
    Carries set (set.addMethod id m hidden) := by
  have entry (x : MethodId) := set.methodAt_addMethod id m hidden x
  have old {x : MethodId} (known : set.HasMethod x) :
      (set.addMethod id m hidden).methodAt x = set.methodAt x := by
    rw [entry, if_neg fun isNew => Nat.lt_irrefl _ (isNew ▸ known)]
  have new {x : MethodId} (isNew : x = set.nextMethod) :
      ((set.addMethod id m hidden).methodAt x).declaredBy = id := by
    rw [entry, if_pos isNew]
  have grown (cls : ClassId) :
      (set.classAt cls).methods ⊆ ((set.addMethod id m hidden).classAt cls).methods := by
    rcases set.classAt_addMethod_cases id m hidden cls with same | ⟨-, more⟩
    · rw [same]
      exact fun _ member => member
    · rw [more]
      exact List.subset_append_left ..
  have classes (cls : ClassId) :
      ((set.addMethod id m hidden).classAt cls).fields = (set.classAt cls).fields := by
    rcases set.classAt_addMethod_cases id m hidden cls with same | ⟨-, more⟩
    · rw [same]
    · rw [more]
  constructor
  case standing =>
    intro cls x member
    have stood (shown : x ∈ (set.classAt cls).view) : (set.addMethod id m hidden).Stands x := by
      rw [Stands, old (formed.views cls x shown)]
      exact grown _ (standing cls x shown)
    rcases set.classAt_addMethod_cases id m hidden cls with same | ⟨rfl, more⟩
    · exact stood (same ▸ member)
    · rw [more] at member
      rcases List.mem_append.1 member with shown | isNew
      · exact stood shown
      · have isNew := List.mem_singleton.1 isNew
        rw [Stands, new isNew, more, isNew]
        exact List.mem_append_right _ List.mem_cons_self
  case views =>
    intro cls x member
    rcases set.classAt_addMethod_cases id m hidden cls with same | ⟨rfl, more⟩
    · exact .inl (same ▸ member)
    · rw [more] at member
      exact (List.mem_append.1 member).imp (fun shown => shown) fun isNew =>
        new (List.mem_singleton.1 isNew)
  case methods =>
    intro x stands
    by_cases known : set.HasMethod x
    · left
      rw [Stands, old known] at stands
      rcases set.classAt_addMethod_cases id m hidden (set.methodAt x).declaredBy with
        same | ⟨-, more⟩
      · rwa [same] at stands
      · rw [more] at stands
        refine (List.mem_append.1 stands).resolve_right fun isNew => ?_
        exact Nat.lt_irrefl _ (List.mem_singleton.1 isNew ▸ known)
    · exact .inr known
  case owners =>
    intro x o owner
    rw [entry] at owner ⊢
    split at owner
    · rename_i isNew
      rw [if_pos isNew]
      exact .inr (List.mem_singleton.1 owner)
    · exact .inl owner
  case fields =>
    intro f stands
    rw [StandsField, classes] at stands
    exact .inl stands
  case fieldOwners => exact fun f o owner => .inl owner

theorem addField (id : ClassId) (f : FieldDecl) (hidden : Bool) :
    Carries set (set.addField id f hidden) := by
  have entry (x : FieldId) := set.fieldAt_addField id f hidden x
  have classes (cls : ClassId) : ((set.addField id f hidden).classAt cls).methods =
      (set.classAt cls).methods ∧
      ((set.addField id f hidden).classAt cls).view = (set.classAt cls).view := by
    rcases set.classAt_addField_cases id f hidden cls with same | ⟨-, more⟩
    · rw [same]
      exact ⟨rfl, rfl⟩
    · rw [more]
      exact ⟨rfl, rfl⟩
  constructor
  case standing =>
    intro cls x member
    rw [(classes cls).2] at member
    rw [Stands, (classes _).1]
    exact standing cls x member
  case views => exact fun cls x member => .inl ((classes cls).2 ▸ member)
  case methods =>
    intro x stands
    rw [Stands, (classes _).1] at stands
    exact .inl stands
  case owners => exact fun x o owner => .inl owner
  case fields =>
    intro x stands
    by_cases known : set.HasField x
    · left
      have different : x ≠ set.nextField := fun isNew => Nat.lt_irrefl _ (isNew ▸ known)
      rw [StandsField, entry, if_neg different] at stands
      rcases set.classAt_addField_cases id f hidden (set.fieldAt x).declaredBy with same | ⟨-, more⟩
      · rwa [same] at stands
      · rw [more] at stands
        exact (List.mem_append.1 stands).resolve_right fun isNew =>
          different (List.mem_singleton.1 isNew)
    · exact .inr known
  case fieldOwners =>
    intro x o owner
    rw [entry] at owner ⊢
    split at owner
    · rename_i isNew
      rw [if_pos isNew]
      exact .inr (List.mem_singleton.1 owner)
    · exact .inl owner

omit standing in
theorem insert? {file : ClassFile} {source : Option Bytes} {hidden : Bool} (accurate : set.Accurate)
    (inserted : set.insert? file source hidden = some later) : Carries set later := by
  refine (insert?_rule (P := fun u => Carries set u ∧
    Evolves .everything set u) inserted ?_ ?_ ?_).1
  · exact ⟨.addClass accurate.standing rfl rfl rfl, .addClass _ set rfl rfl rfl⟩
  · rintro u f ⟨carries, evolves⟩
    have formed := evolves.wellFormed accurate.wellFormed
    have added : Evolves .everything u (u.addField set.nextClass f hidden) :=
      .addField trivial u f hidden
    exact ⟨carries.trans (.addField carries.standing _ f hidden) formed evolves added,
      evolves.trans added⟩
  · rintro u m - ⟨carries, evolves⟩
    have formed := evolves.wellFormed accurate.wellFormed
    have added : Evolves .everything u (u.addMethod set.nextClass m hidden) :=
      .addMethod trivial u m hidden
    exact ⟨carries.trans (.addMethod carries.standing formed _ m hidden) formed evolves added,
      evolves.trans added⟩

end Carries

theorem Climbs.of_untouched (untouched : Untouched set later)
    (find? : ∀ name id, set.find? name = some id → later.find? name = some id) :
    Climbs set later := by
  refine ⟨find?, fun id => ?_⟩
  by_cases unknown : set.HasClass id
  · rw [untouched.classAt id unknown]
    exact fun _ member => member
  · rw [classAt_of_unknown unknown]
    exact List.nil_subset _

theorem Untouched.retains (untouched : Untouched set later) (formed : set.WellFormed)
    (find? : ∀ name id, set.find? name = some id → later.find? name = some id) :
    Retains set later := by
  have known {id : ClassId} (lists : (set.classAt id).methods ≠ [] ∨ (set.classAt id).fields ≠ []) :
      set.HasClass id := by
    by_contra unknown
    rw [classAt_of_unknown unknown] at lists
    exact lists.elim (fun h => h rfl) fun h => h rfl
  refine (Climbs.of_untouched untouched find?).retains (fun id m member => ?_) fun id f member => ?_
  · have has := (formed.methods id m member).1
    rw [untouched.classAt id (known (.inl (List.ne_nil_of_mem member))), signature,
      untouched.methodAt m has]
    exact ⟨member, rfl⟩
  · have has := (formed.fields id f member).1
    rw [untouched.classAt id (known (.inr (List.ne_nil_of_mem member))), fieldSignature,
      untouched.fieldAt f has]
    exact ⟨member, rfl⟩

end JvmPatch.ClassSet
