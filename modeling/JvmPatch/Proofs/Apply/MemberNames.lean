import JvmPatch.Proofs.Apply.Removal
import JvmPatch.Proofs.Resolve.Members
import JvmPatch.Proofs.Scope.Naming

/-! The names of members while a script is applied. A field that is added under a key has the name
that the key stands for from then on. So does a method, unless it takes over the name of a method
that its class does not have. -/

set_option autoImplicit false

namespace JvmPatch

/-- Names of members that keys stand for stay, and the first one of a key is the one that is
written. -/
structure KeepsMemberNames (s t : ApplyState) : Prop where
  methods : ∀ cls (key : MemberKey),
    key.Settles (s.scope.methodName? s.classes cls key) (t.scope.methodName? t.classes cls key)
  fields : ∀ cls (key : MemberKey),
    key.Settles (s.scope.fieldName? s.classes cls key) (t.scope.fieldName? t.classes cls key)

/-- From a state in which all that names stand for is known, a state is reached in which it is, too.
Names and members stay, and so do the names of members that keys stand for. -/
structure Onward (s t : ApplyState) : Prop where
  members : s.classes.KeepsMembers t.classes
  classes : ∀ key id, s.scope.class? key = some id → t.scope.class? key = some id
  methods : ∀ e ∈ s.scope.methods.entries, e ∈ t.scope.methods.entries
  within_ : t.scope.Within t.classes
  names : KeepsMemberNames s t

namespace Onward

variable {s t u : ApplyState} {set : ClassSet} {scope : Scope}

theorem refl {s : ApplyState} (within : s.scope.Within s.classes) : Onward s s :=
  ⟨.refl s.classes, fun _ _ h => h, fun _ h => h, within, fun _ key => .refl key _,
    fun _ key => .refl key _⟩

theorem trans (first : Onward s t) (second : Onward t u) : Onward s u where
  members := first.members.trans second.members
  classes key id h := second.classes key id (first.classes key id h)
  methods e h := second.methods e (first.methods e h)
  within_ := second.within_
  names := ⟨fun cls key => (first.names.methods cls key).trans (second.names.methods cls key),
    fun cls key => (first.names.fields cls key).trans (second.names.fields cls key)⟩

/-- Nothing changes for the members that are known, and a name may come to stand for a class. -/
theorem ofKept (within : s.scope.Within s.classes) (kept : s.classes.KeepsMembers set)
    (classes : ∀ key id, s.scope.class? key = some id → scope.class? key = some id)
    (methods : scope.methods = s.scope.methods) (fields : scope.fields = s.scope.fields)
    (knows : scope.Knows set) (summary : ApplySummary) : Onward s ⟨set, scope, summary⟩ where
  members := kept
  classes := classes
  methods _ member := methods ▸ member
  within_ :=
    have still := within.kept kept
    ⟨knows, methods ▸ still.methods, fields ▸ still.fields⟩
  names := by
    refine ⟨fun cls key => ?_, fun cls key => ?_⟩
    · rw [Scope.methodName?_congr within kept methods]
      exact .refl key _
    · rw [Scope.fieldName?_congr within kept fields]
      exact .refl key _

theorem ofClasses (within : s.scope.Within s.classes) (kept : s.classes.KeepsMembers set)
    (summary : ApplySummary) :
    Onward s ⟨set, s.scope, summary⟩ :=
  ofKept within kept (fun _ _ h => h) rfl rfl (within.kept kept).classes summary

end Onward

namespace Onward

variable {s : ApplyState} {set : ClassSet} {id : ClassId} {key : MemberKey} {written d : String}

/-- A method is added and gets a key for which it has the right name. -/
theorem ofMethod {m : MethodId} (within : s.scope.Within s.classes)
    (kept : s.classes.KeepsMembers set) (known : set.HasMethod m)
    (fresh : ∀ e ∈ s.scope.methods.entries, e.1 ≠ m) (spelled : key.name = "~" ++ written)
    (isNew : (set.methodAt m).holding =
      ⟨(s.scope.methodName? s.classes id key).getD written, d, id, [id]⟩)
    (free : (s.scope.methods.keysOf key).find? (fun x => (set.methodAt x).declaredBy == id) = none)
    (summary : ApplySummary) :
    Onward s ⟨set, { s.scope with methods := s.scope.methods.insert m key }, summary⟩ := by
  have first : Onward s ⟨set, s.scope, summary⟩ := .ofClasses within kept summary
  refine ⟨kept, fun _ _ h => h,
    fun e member => Table.mem_insertEntry_of_mem key member (fresh e member), ?_, ?_,
    first.names.fields⟩
  · refine ⟨first.within_.classes, fun e member => ?_, first.within_.fields⟩
    rcases Table.mem_insertEntry member with rfl | old
    · exact known
    · exact first.within_.methods e old
  · intro cls k
    rw [← s.scope.methodName?_of_keepsMembers within kept] at isNew ⊢
    exact Table.settles_insert fresh isNew spelled free cls k

/-- A field is added and gets a key for which it has the right name. -/
theorem ofField {f : FieldId} (within : s.scope.Within s.classes)
    (kept : s.classes.KeepsMembers set) (known : set.HasField f)
    (fresh : ∀ e ∈ s.scope.fields.entries, e.1 ≠ f) (spelled : key.name = "~" ++ written)
    (isNew : (set.fieldAt f).holding =
      ⟨(s.scope.fieldName? s.classes id key).getD written, d, id, [id]⟩)
    (free : (s.scope.fields.keysOf key).find? (fun x => (set.fieldAt x).declaredBy == id) = none)
    (summary : ApplySummary) :
    Onward s ⟨set, { s.scope with fields := s.scope.fields.insert f key }, summary⟩ := by
  have first : Onward s ⟨set, s.scope, summary⟩ := .ofClasses within kept summary
  refine ⟨kept, fun _ _ h => h, fun _ member => member, ?_, first.names.methods, ?_⟩
  · refine ⟨first.within_.classes, first.within_.methods, fun e member => ?_⟩
    rcases Table.mem_insertEntry member with rfl | old
    · exact known
    · exact first.within_.fields e old
  · intro cls k
    rw [← s.scope.fieldName?_of_keepsMembers within kept] at isNew ⊢
    exact Table.settles_insert fresh isNew spelled free cls k

end Onward

namespace Onward

variable {s t : ApplyState}

theorem mapClass (onward : Onward s t) (within : s.scope.Within s.classes) {name real : String}
    (means : s.scope.mapClass s.classes name = .ok real) :
    t.scope.mapClass t.classes name = .ok real := by
  unfold Scope.mapClass at means ⊢
  split at means
  · rename_i weak
    rw [if_pos weak]
    split at means
    · rename_i id stands
      simp only [onward.classes name id stands,
        (onward.members.cls id (within.classes name id stands)).2]
      exact means
    · cases means
  · rename_i strong
    rwa [if_neg strong]

theorem mapType (onward : Onward s t) (within : s.scope.Within s.classes) {type real : TypeDesc}
    (means : s.scope.mapType s.classes type = .ok real) :
    t.scope.mapType t.classes type = .ok real := by
  unfold Scope.mapType at means ⊢
  split at means
  · rename_i name isObject
    cases isClass : s.scope.mapClass s.classes name with
    | error e =>
      rw [isClass] at means
      cases means
    | ok n =>
      rw [isClass] at means
      rw [onward.mapClass within isClass]
      exact means
  · exact means

theorem mapMethod (onward : Onward s t) (within : s.scope.Within s.classes) {type real : MethodDesc}
    (means : s.scope.mapMethod s.classes type = .ok real) :
    t.scope.mapMethod t.classes type = .ok real := by
  obtain ⟨params, areParams, means⟩ := bind_eq_ok means
  obtain ⟨result, isResult, done⟩ := bind_eq_ok means
  have paramsLater : type.params.mapM (t.scope.mapType t.classes) = .ok params :=
    mapM_eq_ok_of_forall₂ ((forall₂_of_mapM_ok areParams).imp fun _ _ => onward.mapType within)
  rw [Scope.mapMethod, paramsLater, ok_bind, onward.mapType within isResult]
  exact done

end Onward

theorem Scope.Lends.onward {s t : ApplyState} {cls : ClassId} {key : MemberKey} {name : String}
    (lends : s.scope.Lends s.classes cls key name) (within : s.scope.Within s.classes)
    (onward : Onward s t) :
    t.scope.Lends t.classes cls key name := by
  obtain ⟨m, isBound, foreign, isName⟩ := lends
  have bound := Table.mem_keysOf.1 isBound
  have same := (onward.members.method m (within.methods _ bound)).2
  refine ⟨m, Table.mem_keysOf.2 (onward.methods _ bound), ?_, ?_⟩
  · rwa [ClassSet.holdsMethod_congr same]
  · exact (congrArg Holding.name same).trans isName

namespace ApplyState

/-- What a line has added to a class has the type of the line, and if the line has a weak name, then
the key of the line stands for its name. -/
structure AddedField (s : ApplyState) (cls : ClassId) (l : FieldLine) (f : FieldId) : Prop where
  known : s.classes.HasField f
  desc : ∃ type, s.scope.mapType s.classes l.type = .ok type ∧
    (s.classes.fieldAt f).desc = type.text
  name : l.ident.isBindable = true →
    s.scope.fieldName? s.classes cls (.of l.ident l.desc) = some (s.classes.fieldAt f).name

/-- What a block has added to a class has the type of the block, and if the block has a weak name,
then the key of the block stands for its name, or it stands for no other name than the one that is
written, the method is a public instance method, and its name is that of a method of the key that
the class does not have. -/
structure AddedMethod (s : ApplyState) (cls : ClassId) (block : MethodBlock)
    (m : MethodId) : Prop where
  known : s.classes.HasMethod m
  desc : ∃ type, s.scope.mapMethod s.classes block.type = .ok type ∧
    (s.classes.methodAt m).desc = type.text
  name : block.ident.isBindable = true →
    s.scope.methodName? s.classes cls (.of block.ident block.desc) =
      some (s.classes.methodAt m).name ∨
      (∀ name, s.scope.methodName? s.classes cls (.of block.ident block.desc) = some name →
        name = block.ident.name) ∧ block.access = Access.isPublic ∧
          s.scope.Lends s.classes cls (.of block.ident block.desc) (s.classes.methodAt m).name

variable {s t : ApplyState} {cls : ClassId}

theorem AddedField.onward {l : FieldLine} {f : FieldId} (added : s.AddedField cls l f)
    (within : s.scope.Within s.classes) (onward : Onward s t) : t.AddedField cls l f := by
  obtain ⟨known, same⟩ := onward.members.field f added.known
  obtain ⟨type, means, isDesc⟩ := added.desc
  refine ⟨known, ⟨type, onward.mapType within means, (congrArg Holding.desc same).trans isDesc⟩,
    fun bindable => ?_⟩
  exact (onward.names.fields cls _).stays
    _ ((added.name bindable).trans (congrArg (fun h => some h.name) same).symm)

theorem AddedMethod.onward {block : MethodBlock} {m : MethodId} (added : s.AddedMethod cls block m)
    (within : s.scope.Within s.classes) (onward : Onward s t) : t.AddedMethod cls block m := by
  obtain ⟨known, same⟩ := onward.members.method m added.known
  have sameName : (t.classes.methodAt m).name = (s.classes.methodAt m).name :=
    congrArg Holding.name same
  obtain ⟨type, means, isDesc⟩ := added.desc
  refine ⟨known, ⟨type, onward.mapMethod within means, (congrArg Holding.desc same).trans isDesc⟩,
    fun bindable => ?_⟩
  have settles := onward.names.methods cls (.of block.ident block.desc)
  rw [sameName]
  refine (added.name bindable).imp (settles.stays _) fun ⟨written, isPublic, lends⟩ =>
    ⟨fun name found => ?_, isPublic, lends.onward within onward⟩
  cases before : s.scope.methodName? s.classes cls (.of block.ident block.desc) with
  | none =>
    have spelled := settles.written before name found
    exact (String.append_right_inj _).1
      ((Ident.text_of_isBindable bindable).symm.trans spelled) |>.symm
  | some other =>
    obtain rfl := Option.some.inj ((settles.stays other before).symm.trans found)
    exact written other before

end ApplyState

namespace ApplyM

variable {s t : ApplyState} {id : ClassId}

/-- What an added field is, and the scope afterwards. -/
theorem addField_holding {l : FieldLine} {f : FieldId} (h : (addField id l).run s = .ok f t) :
    ∃ type, s.scope.mapType s.classes l.type = .ok type ∧ s.classes.KeepsMembers t.classes ∧
      t.classes.HasField f ∧ f = s.classes.nextField ∧ (t.classes.fieldAt f).holding =
        ⟨(s.scope.fieldName? s.classes id (.of l.ident l.desc)).getD l.ident.name,
          type.text, id, [id]⟩ ∧
      t.scope = if l.ident.isBindable then
        (s.scope.bindField? t.classes id (.of l.ident l.desc) f).getD s.scope else s.scope := by
  obtain ⟨type, means, rfl, classes, scope⟩ := addField_result h
  rw [scope, classes, Scope.fieldName?_eq]
  refine ⟨type, means,
    (ClassSet.KeepsMembers.addField _ id _ false).trans (.modifyClass _ id fun _ => rfl), ?_,
    rfl, ?_, rfl⟩
  · simp [ClassSet.HasField, ClassSet.addField, ClassSet.nextField, ClassSet.modifyClass]
  · refine (congrArg FieldEntry.holding (ClassSet.fieldAt_addField ..)).trans ?_
    rw [if_pos rfl]
    rfl

/-- What an added method is, and the scope afterwards. -/
theorem addMethod_holding {block : MethodBlock} {m : MethodId}
    (h : (addMethod id block).run s = .ok m t) :
    ∃ type, s.scope.mapMethod s.classes block.type = .ok type ∧ s.classes.KeepsMembers t.classes ∧
      t.classes.HasMethod m ∧ m = s.classes.nextMethod ∧ (t.classes.methodAt m).holding =
        ⟨((namesake? s id block).map fun m => (s.classes.methodAt m).name).getD block.ident.name,
          type.text, id, [id]⟩ ∧
      t.scope = if block.ident.isBindable ∧ (namesake? s id block).isNone then
        (s.scope.bindMethod? t.classes id (.of block.ident block.desc) m).getD s.scope
          else s.scope := by
  obtain ⟨type, means, rfl, classes, scope⟩ := addMethod_result h
  rw [scope, classes]
  refine ⟨type, means,
    (ClassSet.KeepsMembers.addMethod _ id _ false).trans (.modifyClass _ id fun _ => rfl), ?_,
    rfl, ?_, rfl⟩
  · simp [ClassSet.HasMethod, ClassSet.addMethod, ClassSet.nextMethod, ClassSet.modifyClass]
  · refine (congrArg MethodEntry.holding (ClassSet.methodAt_addMethod ..)).trans ?_
    rw [if_pos rfl]
    rfl

theorem namesake?_cases (s : ApplyState) (id : ClassId) {block : MethodBlock}
    (bindable : block.ident.isBindable = true) :
    (∃ b, s.scope.method? s.classes id (.of block.ident block.desc) = some b ∧
      namesake? s id block = some b) ∨
      s.scope.method? s.classes id (.of block.ident block.desc) = none ∧
        ((block.access = Access.isPublic ∧ ∃ b ∈ s.scope.methodsOf (.of block.ident block.desc),
            namesake? s id block = some b) ∨ namesake? s id block = none) := by
  rw [namesake?, if_pos bindable]
  dsimp only
  cases stands : s.scope.method? s.classes id (.of block.ident block.desc) with
  | some b => exact .inl ⟨b, rfl, rfl⟩
  | none =>
    refine .inr ⟨rfl, ?_⟩
    dsimp only
    by_cases isPublic : block.access = Access.isPublic
    · rw [if_pos isPublic]
      cases isOverridden : overridden? s id (.of block.ident block.desc) with
      | some b => exact .inl ⟨isPublic, b, List.mem_of_find?_eq_some isOverridden, rfl⟩
      | none => exact .inr rfl
    · exact .inr (if_neg isPublic)

/-- An added field has the name that its key stands for from then on. -/
theorem addField_names {l : FieldLine} {f : FieldId} (within : s.scope.Within s.classes)
    (h : (addField id l).run s = .ok f t) : Onward s t ∧ t.AddedField id l f := by
  obtain ⟨type, means, kept, known, isNext, isNew, isScope⟩ := addField_holding h
  obtain ⟨set, scope, summary⟩ := t
  dsimp only at kept known isNew isScope
  set key : MemberKey := .of l.ident l.desc
  have same := s.scope.fieldName?_of_keepsMembers within kept
  have name : (set.fieldAt f).name = (s.scope.fieldName? s.classes id key).getD l.ident.name :=
    congrArg Holding.name isNew
  have fresh (e : FieldId × MemberKey) (member : e ∈ s.scope.fields.entries) : e.1 ≠ f := by
    rintro rfl
    exact Nat.lt_irrefl _ (isNext ▸ within.fields e member)
  suffices Onward s ⟨set, scope, summary⟩ ∧
      (l.ident.isBindable = true → scope.fieldName? set id key = some (set.fieldAt f).name) from
    ⟨this.1, known, ⟨type, this.1.mapType within means, congrArg Holding.desc isNew⟩, this.2⟩
  by_cases bindable : l.ident.isBindable = true
  · rw [if_pos bindable] at isScope
    rcases Scope.bindField?_of_fresh set id key fresh with ⟨taken, stands⟩ | ⟨bound, free⟩
    · rw [taken, Option.getD_none] at isScope
      subst isScope
      refine ⟨.ofClasses within kept summary, fun _ => ?_⟩
      rw [name, ← same, Scope.fieldName?_eq]
      obtain ⟨x, isField⟩ := Option.isSome_iff_exists.1 stands
      rw [isField, Option.map_some, Option.getD_some]
    · rw [bound, Option.getD_some] at isScope
      subst isScope
      refine ⟨.ofField within kept known fresh (Ident.text_of_isBindable bindable) isNew free
        summary, fun _ => ?_⟩
      exact name ▸ Table.nameFor_insert_self isNew free
  · rw [if_neg bindable] at isScope
    subst isScope
    exact ⟨.ofClasses within kept summary, fun isBindable => absurd isBindable bindable⟩

/-- An added method has the name that its key stands for from then on, unless the key stands for
none and its name is that of a method that the class does not have. -/
theorem addMethod_names {block : MethodBlock} {m : MethodId} (within : s.scope.Within s.classes)
    (h : (addMethod id block).run s = .ok m t) : Onward s t ∧ t.AddedMethod id block m := by
  obtain ⟨type, means, kept, known, isNext, isNew, isScope⟩ := addMethod_holding h
  obtain ⟨set, scope, summary⟩ := t
  dsimp only at kept known isNew isScope
  set key : MemberKey := .of block.ident block.desc
  have same := s.scope.methodName?_of_keepsMembers within kept
  have name : (set.methodAt m).name =
    ((namesake? s id block).map fun m => (s.classes.methodAt m).name).getD
      block.ident.name := congrArg Holding.name isNew
  have fresh (e : MethodId × MemberKey) (member : e ∈ s.scope.methods.entries) : e.1 ≠ m := by
    rintro rfl
    exact Nat.lt_irrefl _ (isNext ▸ within.methods e member)
  suffices Onward s ⟨set, scope, summary⟩ ∧ (block.ident.isBindable = true →
      scope.methodName? set id key = some (set.methodAt m).name ∨
        scope.methodName? set id key = none ∧
        block.access = Access.isPublic ∧ scope.Lends set id key (set.methodAt m).name) by
    refine ⟨this.1, known, ⟨type, this.1.mapMethod within means, congrArg Holding.desc isNew⟩,
      fun bindable => ?_⟩
    refine (this.2 bindable).imp_right fun ⟨nameless, others⟩ => ⟨fun name found => ?_, others⟩
    cases nameless.symm.trans found
  by_cases bindable : block.ident.isBindable = true
  swap
  · rw [if_neg fun both => bindable both.1] at isScope
    subst isScope
    exact ⟨.ofClasses within kept summary, fun isBindable => absurd isBindable bindable⟩
  rcases namesake?_cases s id bindable with ⟨b, stands, isNamesake⟩ | ⟨free, lends⟩
  · rw [isNamesake, if_neg (by simp)] at isScope
    subst isScope
    refine ⟨.ofClasses within kept summary, fun _ => .inl ?_⟩
    rw [same, Scope.methodName?_eq, stands, name, isNamesake, Option.map_some, Option.getD_some]
  have noName : s.scope.methodName? s.classes id key = none := by
    rw [Scope.methodName?_eq, free, Option.map_none]
  rcases lends with ⟨isPublic, b, isBound, isNamesake⟩ | isNamesake
  · rw [isNamesake, if_neg (by simp)] at isScope
    subst isScope
    have unchanged := (kept.method b (within.methods _ (Table.mem_keysOf.1 isBound))).2
    refine ⟨.ofClasses within kept summary,
      fun _ => .inr ⟨by rw [same, noName], isPublic, b, isBound, ?_, ?_⟩⟩
    · rw [ClassSet.holdsMethod_congr unchanged]
      exact Scope.method?_eq_none_iff.1 free b isBound
    · rw [name, isNamesake, Option.map_some, Option.getD_some]
      exact congrArg Holding.name unchanged
  · rw [isNamesake, Option.map_none, ← noName] at isNew
    rw [isNamesake, if_pos ⟨bindable, rfl⟩] at isScope
    rcases Scope.bindMethod?_of_fresh set id key fresh with ⟨-, stands⟩ | ⟨bound, unused⟩
    · obtain ⟨x, isMethod⟩ := Option.isSome_iff_exists.1 stands
      have named := congrFun (congrFun same id) key
      rw [noName, Scope.methodName?_eq, isMethod] at named
      cases named
    · rw [bound, Option.getD_some] at isScope
      subst isScope
      refine ⟨.ofMethod within kept known fresh (Ident.text_of_isBindable bindable) isNew
        unused summary, fun _ => .inl ?_⟩
      rw [name, isNamesake, Option.map_none, ← noName]
      exact Table.nameFor_insert_self isNew unused

end ApplyM

/-- If all that names stand for is known, then a state is reached from here on. -/
def GoesOnward (s t : ApplyState) : Prop := s.scope.Within s.classes → Onward s t

instance : IsPreorder ApplyState GoesOnward where
  refl _ within := .refl within
  trans _ _ _ first second within := (first within).trans (second (first within).within_)

namespace GoesOnward

open ApplyM

protected theorem mapped {α : Type} (line : Nat) (f : ApplyState → Except UnboundName α) :
    Moves GoesOnward (mapped line f) := by
  intro s x t h
  obtain ⟨-, rfl⟩ := mapped_ok h
  exact .refl

protected theorem assigned {α : Type} (element : String) (x : Option α) :
    Moves GoesOnward (assigned element x) := by
  intro s y t h
  obtain ⟨-, rfl⟩ := run_assigned_ok h
  exact .refl

protected theorem modifyClasses {f : ClassSet → ClassSet}
    (kept : ∀ set : ClassSet, set.KeepsMembers (f set)) :
    Moves GoesOnward (modifyClasses f) := by
  intro s x t h
  cases h
  exact fun within => .ofClasses within (kept s.classes) s.summary

protected theorem touch (id : ClassId) : Moves GoesOnward (touch id) :=
  .modifyClasses fun set => .modifyClass set id fun _ => rfl

protected theorem count (f : ApplySummary → ApplySummary) : Moves GoesOnward (count f) := by
  intro s x t h
  cases h
  exact fun within => .ofClasses within (.refl s.classes) (f s.summary)

protected theorem addClass (block : ClassBlock) : Moves GoesOnward (addClass block) := by
  intro s id t h within
  obtain ⟨rfl, isSet, isScope⟩ := addClass_result h
  obtain ⟨set, scope, summary⟩ := t
  dsimp only at isSet isScope
  subst isSet
  have kept := ClassSet.KeepsMembers.addClass s.classes
    (.fresh block.ident.name (some objectClass) block.kind.access)
  rcases isScope with rfl | bound
  · exact .ofClasses within kept summary
  · obtain ⟨-, extended, -, only⟩ := Scope.bindClass?_eq_some bound
    obtain ⟨fields, methods⟩ := Scope.members_of_bindClass? bound
    refine .ofKept within kept extended.classes methods fields (fun key id found => ?_) summary
    rcases only key id found with old | rfl
    · exact (kept.cls id (within.classes key id old)).1
    · simp [ClassSet.HasClass, ClassSet.addClass, ClassSet.nextClass]

protected theorem addClasses (blocks : List (ClassBlock × ClassChoice)) :
    Moves GoesOnward (addClasses blocks) := by
  induction blocks with
  | nil => exact .pure _ _
  | cons e rest ih =>
    obtain ⟨block, choice⟩ := e
    have onward (choice : ClassChoice) : Moves GoesOnward (do
        let rest ← addClasses rest
        pure ((block, choice) :: rest)) := ih.bind fun _ => .pure _ _
    unfold addClasses
    dsimp only
    split
    · exact (GoesOnward.addClass block).bind fun _ => (Moves.pure _ _).bind onward
    · exact (Moves.pure _ _).bind onward

protected theorem applySuper (line : Nat) (id : ClassId) (l : SupertypeLine) :
    Moves GoesOnward (applySuper line id l) := by
  have become (name : String) : Moves GoesOnward (modifyClasses fun set =>
      set.modifyClass id fun c => { c with superName := some name, modified := true }) :=
    .modifyClasses fun set => .modifyClass set id fun _ => rfl
  unfold applySuper
  dsimp only
  split
  · exact .pure _ _
  · exact (GoesOnward.mapped _ _).bind become
  · split
    · exact become _
    · refine (GoesOnward.mapped _ _).bind fun name s x t h => ?_
      obtain ⟨start, u, got, h⟩ := run_bind_ok h
      cases got
      split at h
      · exact become _ s x t h
      · cases h
        exact .refl

protected theorem applyInterface (line : Nat) (id : ClassId) (l : SupertypeLine) :
    Moves GoesOnward (applyInterface line id l) := by
  have become (f : List String → List String) : Moves GoesOnward (modifyClasses fun set =>
      set.modifyClass id fun c => { c with interfaces := f c.interfaces, modified := true }) :=
    .modifyClasses fun set => .modifyClass set id fun _ => rfl
  unfold applyInterface
  dsimp only
  split
  · exact .pure _ _
  · exact (GoesOnward.mapped _ _).bind fun name =>
      become fun names => if names.contains name then names else names ++ [name]
  · exact (GoesOnward.mapped _ _).bind fun name => become fun names => names.filter (· != name)

protected theorem addField (id : ClassId) (l : FieldLine) : Moves GoesOnward (addField id l) :=
  fun _ _ _ h within => (addField_names within h).1

protected theorem addMethod (id : ClassId) (block : MethodBlock) :
    Moves GoesOnward (addMethod id block) :=
  fun _ _ _ h within => (addMethod_names within h).1

protected theorem applyField (block : ClassBlock) (id : ClassId) (l : FieldLine)
    (choice : Option FieldId) :
    Moves GoesOnward (applyField block id l choice) := by
  unfold applyField
  split
  · exact .pure _ _
  · refine (GoesOnward.assigned _ _).bind fun f => ?_
    refine (GoesOnward.modifyClasses fun set => .removeField set f).bind fun _ => ?_
    exact (GoesOnward.touch id).bind fun _ => .pure _ _
  · exact (GoesOnward.addField id l).bind fun _ => .pure _ _

protected theorem rewriteAccess (m : MethodId) (block : MethodBlock) :
    Moves GoesOnward (rewriteAccess m block) := by
  intro s x t h
  obtain ⟨start, u, got, h⟩ := run_bind_ok h
  cases got
  dsimp only at h
  split at h
  · refine Moves.bind (GoesOnward.modifyClasses fun set => ?_) (fun _ => .touch _) s x t h
    exact .modifyMethod set m fun _ => rfl
  · cases h
    exact .refl

protected theorem applyMethod (owner : ClassBlock) (id : ClassId) (block : MethodBlock)
    (choice : Option MethodId) :
    Moves GoesOnward (applyMethod owner id block choice) := by
  unfold applyMethod
  split
  · exact (GoesOnward.addMethod id block).bind fun _ => .pure _ _
  · refine (GoesOnward.assigned _ _).bind fun handle s x t h => ?_
    obtain ⟨start, u, got, h⟩ := run_bind_ok h
    cases got
    refine Moves.bind (GoesOnward.modifyClasses fun set => .removeMethod set _)
      (fun _ => (GoesOnward.touch _).bind fun _ => .pure _ _) s x t h
  · exact (GoesOnward.assigned _ _).bind fun m =>
      (GoesOnward.rewriteAccess m block).bind fun _ => .pure _ _

protected theorem removeClass (id : ClassId) : Moves GoesOnward (removeClass id) := by
  refine Moves.bind (GoesOnward.modifyClasses fun set => .modifyClass set id ?_) fun _ => .count _
  exact fun _ => rfl

protected theorem applyClass (block : ClassBlock) (choice : ClassChoice) :
    Moves GoesOnward (applyClass block choice) := by
  refine (GoesOnward.assigned _ _).bind fun id => ?_
  split
  · exact (GoesOnward.removeClass id).bind fun _ => .pure _ _
  · refine (Moves.forM fun l _ => .applySuper _ id l).bind fun _ => ?_
    refine (Moves.forM fun l _ => .applyInterface _ id l).bind fun _ => ?_
    refine (Moves.mapM fun e _ => .applyField block id e.1 e.2).bind fun _ => ?_
    exact (Moves.mapM fun e _ => .applyMethod block id e.1 e.2).bind fun _ => .pure _ _

end GoesOnward

def Script.FieldAdded (script : Script) (a : Assignment) (cls : ClassId) (l : FieldLine)
    (f : FieldId) : Prop :=
  l.mode = .add ∧ ∃ e ∈ script.classes.zip a, e.2.cls = some cls ∧
    (l, some f) ∈ e.1.fields.zip e.2.fields

def Script.MethodAdded (script : Script) (a : Assignment) (cls : ClassId) (block : MethodBlock)
    (m : MethodId) : Prop :=
  block.mode = .add ∧ ∃ e ∈ script.classes.zip a, e.2.cls = some cls ∧
    (block, some m) ∈ e.1.methods.zip e.2.methods

theorem exists_of_mem_zip {α β γ : Type} {R : α × β → γ → Prop} {xs : List α}
    {ys : List β} {zs : List γ} (related : List.Forall₂ R (xs.zip ys) zs) {x : α} {z : γ}
    (member : (x, z) ∈ xs.zip zs) :
    ∃ y, (x, y) ∈ xs.zip ys ∧ R (x, y) z := by
  induction xs generalizing ys zs with
  | nil => cases member
  | cons x' xs ih =>
    cases ys with
    | nil =>
      cases related
      cases member
    | cons y ys =>
      cases related with
      | cons one rest =>
        rcases List.mem_cons.1 member with same | member
        · cases same
          exact ⟨y, List.mem_cons_self, one⟩
        · obtain ⟨y', inside, related⟩ := ih rest member
          exact ⟨y', .tail _ inside, related⟩

namespace ApplyM

variable {s t : ApplyState} {id : ClassId}

theorem applyField_added {block : ClassBlock} {l : FieldLine} {choice result : Option FieldId}
    (mode : l.mode = .add) (within : s.scope.Within s.classes)
    (h : (applyField block id l choice).run s = .ok result t) :
    ∃ f, result = some f ∧ t.AddedField id l f := by
  unfold applyField at h
  simp only [mode] at h
  obtain ⟨f, u, added, done⟩ := run_bind_ok h
  cases done
  exact ⟨f, rfl, (addField_names within added).2⟩

theorem applyMethod_added {owner : ClassBlock} {block : MethodBlock} {choice : Option MethodId}
    {result : Option MethodId × List PendingBody} (mode : block.mode = .add)
    (within : s.scope.Within s.classes)
    (h : (applyMethod owner id block choice).run s = .ok result t) :
    ∃ m, result.1 = some m ∧ t.AddedMethod id block m := by
  unfold applyMethod at h
  simp only [mode] at h
  obtain ⟨m, u, added, done⟩ := run_bind_ok h
  cases done
  exact ⟨m, rfl, (addMethod_names within added).2⟩

/-- What is assigned to the added lines of a class block afterwards has been added to the class. -/
theorem applyClass_added {set : ClassSet} {block : ClassBlock} {choice : ClassChoice}
    {result : ClassChoice × List PendingBody}
    (full : block.mode = .remove → set.FullChoice block choice) (within : s.scope.Within s.classes)
    (h : (applyClass block choice).run s = .ok result t) {cls : ClassId}
    (isClass : result.1.cls = some cls) :
    (∀ l f, l.mode = .add → (l, some f) ∈ block.fields.zip result.1.fields → t.AddedField cls l f) ∧
      ∀ b m, b.mode = .add → (b, some m) ∈ block.methods.zip result.1.methods →
        t.AddedMethod cls b m := by
  obtain ⟨id, u, found, body⟩ := run_bind_ok h
  obtain ⟨chosen, rfl⟩ := run_assigned_ok found
  split at body
  · rename_i removes
    obtain ⟨_, v, -, done⟩ := run_bind_ok body
    cases done
    have full := full removes
    refine ⟨fun l f mode member => ?_, fun b m mode member => ?_⟩
    · have fills := (List.forall₂_iff_zip.1 full.fields).2 member
      rw [mode] at fills
      cases fills
    · have fills := (List.forall₂_iff_zip.1 full.methods).2 member
      rw [mode] at fills
      cases fills
  · obtain ⟨_, u₁, superLines, body⟩ := run_bind_ok body
    obtain ⟨_, u₂, interfaceLines, body⟩ := run_bind_ok body
    obtain ⟨fs, u₃, fieldLines, body⟩ := run_bind_ok body
    obtain ⟨ms, u₄, methodBlocks, done⟩ := run_bind_ok body
    cases done
    obtain rfl := Option.some.inj (chosen.symm.trans isClass)
    have takesFields (e : FieldLine × Option FieldId) :
        Moves GoesOnward (applyField block id e.1 e.2) :=
      .applyField block id e.1 e.2
    have takesMethods (e : MethodBlock × Option MethodId) :
        Moves GoesOnward (applyMethod block id e.1 e.2) :=
      .applyMethod block id e.1 e.2
    have supers := Moves.forM (fun l _ => GoesOnward.applySuper _ id l) _ _ _ superLines within
    have interfaces :=
      Moves.forM (fun l _ => GoesOnward.applyInterface _ id l) _ _ _ interfaceLines supers.within_
    have fields := Moves.mapM (fun e _ => takesFields e) _ _ _ fieldLines interfaces.within_
    have methods := Moves.mapM (fun e _ => takesMethods e) _ _ _ methodBlocks fields.within_
    refine ⟨fun l f mode member => ?_, fun b m mode member => ?_⟩
    · obtain ⟨c, -, v, w, before, step, after⟩ :=
        exists_of_mem_zip (Moves.mapM_between (fun e _ => takesFields e) fieldLines) member
      have reached := (before interfaces.within_).within_
      obtain ⟨_, same, added⟩ := applyField_added mode reached step
      obtain rfl := Option.some.inj same
      have there := (takesFields _ _ _ _ step reached).within_
      exact (added.onward there (after there)).onward fields.within_ methods
    · rw [List.zip_map_right] at member
      obtain ⟨e, inside, same⟩ := List.mem_map.1 member
      obtain ⟨rfl, isMethod⟩ := Prod.mk.inj same
      obtain ⟨c, -, v, w, before, step, after⟩ :=
        exists_of_mem_zip (Moves.mapM_between (fun e _ => takesMethods e) methodBlocks) inside
      have reached := (before fields.within_).within_
      obtain ⟨_, same, added⟩ := applyMethod_added mode reached step
      obtain rfl := Option.some.inj (isMethod.symm.trans same)
      have there := (takesMethods _ _ _ _ step reached).within_
      exact added.onward there (after there)

/-- What is assigned to the added lines of a script when everything is declared has been added. -/
theorem declare_added {set : ClassSet} {script : Script} {a : Assignment}
    {applied : List (ClassChoice × List PendingBody)}
    (full : set.FullAssignment script a) (within : s.scope.Within s.classes)
    (h : (declare script a).run s = .ok applied t) :
    Onward s t ∧
      (∀ cls l f, script.FieldAdded (applied.map Prod.fst) cls l f → t.AddedField cls l f) ∧
      ∀ cls block m, script.MethodAdded (applied.map Prod.fst) cls block m →
        t.AddedMethod cls block m := by
  obtain ⟨blocks, u, added, carried⟩ := run_bind_ok h
  have prepared := addClasses_ok added
  have takesClass (e : ClassBlock × ClassChoice) : Moves GoesOnward (applyClass e.1 e.2) :=
    .applyClass e.1 e.2
  have first := GoesOnward.addClasses _ _ _ _ added within
  have rest := Moves.mapM (fun e _ => takesClass e) _ _ _ carried first.within_
  have steps := Moves.mapM_between (fun e _ => takesClass e) carried
  have located (e : ClassBlock × ClassChoice)
    (member : e ∈ script.classes.zip (applied.map Prod.fst)) :
      ∃ choice pending v w, (e.1.mode = .remove → set.FullChoice e.1 choice) ∧
        v.scope.Within v.classes ∧
        (applyClass e.1 choice).run v = .ok (e.2, pending) w ∧ w.scope.Within w.classes ∧
          Onward w t := by
    rw [List.zip_map_right] at member
    obtain ⟨⟨c, result, pending⟩, inside, rfl⟩ := List.mem_map.1 member
    obtain ⟨choice, isBlock, ⟨c', choice'⟩, ready, v, w, before, step, after⟩ :=
      exists_of_mem_zip (forall₂_comp prepared steps) inside
    obtain rfl : c' = c := ready.block
    have reached := (before first.within_).within_
    have there := (takesClass (c', choice') _ _ _ step reached).within_
    refine ⟨choice', pending, v, w, fun removes => ?_, reached, step, there, after there⟩
    have notAdded : c'.mode ≠ .add := fun adds => nomatch adds.symm.trans removes
    obtain rfl : choice' = choice := ready.kept notAdded
    exact (List.forall₂_iff_zip.1 full).2 isBlock
  refine ⟨first.trans rest, ?_, ?_⟩
  · rintro cls l f ⟨mode, e, member, isClass, isField⟩
    obtain ⟨_, _, v, w, unchanged, reached, step, there, after⟩ := located e member
    exact ((applyClass_added unchanged reached step isClass).1 l f mode isField).onward there after
  · rintro cls block m ⟨mode, e, member, isClass, isMethod⟩
    obtain ⟨_, _, v, w, unchanged, reached, step, there, after⟩ := located e member
    exact ((applyClass_added unchanged reached step isClass).2 block m mode isMethod).onward
      there after

end ApplyM

/-! ### The scope of an accepted script -/

section Accepted

variable {set : ClassSet} {script : Script} {a : Assignment}

theorem ClassSet.FullAssignment.known (formed : set.WellFormed)
    (full : set.FullAssignment script a) :
    ∀ choice ∈ a, choice.Known set := by
  intro choice inside
  obtain ⟨block, filled⟩ := ApplyM.exists_of_mem_right full inside
  refine ⟨fun f chosen => ?_, fun m chosen => filled.hasMethod formed chosen⟩
  obtain ⟨_, fills⟩ := ApplyM.exists_of_mem_right filled.fields chosen
  cases isClass : choice.cls with
  | none =>
    rw [isClass] at fills
    cases ApplyM.unassigned_of_fills fills
  | some cls =>
    rw [isClass] at fills
    exact (formed.fields cls f (List.mem_filter.1 (mem_of_fills fills)).1).1

/-- The members that keys stand for are known. -/
structure Scope.KnowsMembers (set : ClassSet) (scope : Scope) : Prop where
  methods : ∀ e ∈ scope.methods.entries, set.HasMethod e.1
  fields : ∀ e ∈ scope.fields.entries, set.HasField e.1

theorem Scope.KnowsMembers.binds {may : Permit} {scope later : Scope}
    (method : ∀ classes cls key m, may.method classes cls key m → set.HasMethod m)
    (field : ∀ classes cls key f, may.field classes cls key f → set.HasField f)
    (known : scope.KnowsMembers set) (binds : Binds may scope later) : later.KnowsMembers set := by
  cases binds with
  | cls bound =>
    obtain ⟨fields, methods⟩ := members_of_bindClass? bound
    exact ⟨methods ▸ known.methods, fields ▸ known.fields⟩
  | field permitted bound =>
    rcases bindField?_cases bound with rfl | ⟨-, -, rfl⟩
    · exact known
    · refine ⟨known.methods, fun e member => ?_⟩
      rcases Table.mem_insertEntry member with rfl | old
      · exact field _ _ _ _ permitted
      · exact known.fields e old
  | method permitted bound =>
    rcases bindMethod?_cases bound with rfl | ⟨-, -, rfl⟩
    · exact known
    · refine ⟨fun e member => ?_, known.fields⟩
      rcases Table.mem_insertEntry member with rfl | old
      · exact method _ _ _ _ permitted
      · exact known.methods e old
  | label _ bound =>
    rcases bindLabel?_cases bound with rfl | ⟨-, -, rfl⟩ <;> exact ⟨known.methods, known.fields⟩

/-- Whatever steps a trial takes, they bind keys to known members. -/
theorem Scope.knowsMembers_of_steps {may : Permit} {scope : Scope} (steps : Steps may {} scope)
    (method : ∀ classes cls key m, may.method classes cls key m → set.HasMethod m)
    (field : ∀ classes cls key f, may.field classes cls key f → set.HasField f) :
    scope.KnowsMembers set := by
  induction steps with
  | refl => exact ⟨fun _ member => (nomatch member), fun _ member => nomatch member⟩
  | tail _ step ih =>
    cases step with
    | bind binds => exact ih.binds method field binds
    | record | clear => exact ⟨ih.methods, ih.fields⟩

/-- All that the names of an accepted script stand for is known. -/
theorem ClassSet.within_of_resolve {o : ResolveOptions} {r : Resolution} (formed : set.WellFormed)
    (accepted : set.resolve script {} (set.verify script) o = .ok r) : r.scope.Within set := by
  have first := firstAccepted_of_resolve accepted
  obtain ⟨claimed, bound, claims, checks⟩ := first.accepted
  have allows := set.allows_namesMembers script r.assignment
  have steps := (set.verify_steps allows).ok ((set.claimAll_steps allows).ok .refl claims) checks
  have members := Scope.knowsMembers_of_steps steps
    (fun _ _ _ _ names => names.2.known formed (first.full.known formed))
    fun _ _ _ _ names => names.2.known formed (first.full.known formed)
  exact ⟨(verified_of_accepts first.full first.accepted).1, members.methods, members.fields⟩

end Accepted

end JvmPatch
