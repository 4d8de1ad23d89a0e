import JvmPatch.Proofs.ClassSet.Growth
import JvmPatch.Proofs.Scope.Members
import Mathlib.Data.List.Find

/-! The names of the members that keys stand for. A key that gets its first member in a class stands
for the name of that member from then on, and nothing that leaves names, declaring classes and
owners alone changes a name. -/

set_option autoImplicit false

namespace JvmPatch

/-- What a member is called, the class that declares it and those that have it. -/
structure Holding where
  name : String
  desc : String
  declaredBy : ClassId
  owners : List ClassId
  deriving DecidableEq, Repr

/-- What a key needs to know of a method. -/
def MethodEntry.holding (m : MethodEntry) : Holding := ⟨m.name, m.desc, m.declaredBy, m.owners⟩

/-- What a key needs to know of a field. -/
def FieldEntry.holding (f : FieldEntry) : Holding := ⟨f.name, f.desc, f.declaredBy, f.owners⟩

/-- A name that a key stands for stays, and the first one is the one that is written. -/
structure MemberKey.Settles (key : MemberKey) (before after : Option String) : Prop where
  stays : ∀ name, before = some name → after = some name
  written : before = none → ∀ name, after = some name → key.name = "~" ++ name

namespace MemberKey.Settles

variable {key : MemberKey} {before between after : Option String}

theorem refl (key : MemberKey) (name : Option String) : key.Settles name name :=
  ⟨fun _ h => h, fun none name found => by rw [none] at found; cases found⟩

theorem trans (first : key.Settles before between) (second : key.Settles between after) :
    key.Settles before after := by
  refine ⟨fun name found => second.stays name (first.stays name found), fun none name found => ?_⟩
  cases middle : between with
  | none => exact second.written middle name found
  | some other =>
    obtain rfl := Option.some.inj ((second.stays other middle).symm.trans found)
    exact first.written none other middle

end MemberKey.Settles

namespace Table

variable {α : Type} [DecidableEq α] {names : Table α MemberKey} {holding holding' : α → Holding}
  {cls id : ClassId}
  {key k : MemberKey} {x : α} {n d : String}

def nameFor (names : Table α MemberKey) (holding : α → Holding) (cls : ClassId)
    (key : MemberKey) : Option String :=
  (((names.keysOf key).find? fun x => (holding x).declaredBy == cls).or
    ((names.keysOf key).find? fun x => (holding x).owners.contains cls)).map fun x =>
      (holding x).name

theorem get?_eq_none_of_fresh (fresh : ∀ e ∈ names.entries, e.1 ≠ x) : names.get? x = none := by
  refine List.lookup_eq_none_iff.2 fun e member => ?_
  simpa using Ne.symm (fresh e member)

omit [DecidableEq α] in
theorem mem_keysOf : x ∈ names.keysOf key ↔ (x, key) ∈ names.entries := by
  constructor
  · intro member
    obtain ⟨e, inside, rfl⟩ := List.mem_map.1 member
    obtain ⟨inside, same⟩ := List.mem_filter.1 inside
    rwa [← eq_of_beq same]
  · exact fun inside => List.mem_map.2 ⟨_, List.mem_filter.2 ⟨inside, by simp⟩, rfl⟩

omit [DecidableEq α] in
theorem nameFor_congr (same : ∀ e ∈ names.entries, holding' e.1 = holding e.1) (cls : ClassId)
    (key : MemberKey) :
    names.nameFor holding' cls key = names.nameFor holding cls key := by
  have alike (y : α) (member : y ∈ names.keysOf key) : holding' y = holding y :=
    same (y, key) (mem_keysOf.1 member)
  have first : (names.keysOf key).find? (fun y => (holding' y).declaredBy == cls) =
      (names.keysOf key).find? fun y => (holding y).declaredBy == cls :=
    List.find?_congr fun y member => by rw [alike y member]
  have second : (names.keysOf key).find? (fun y => (holding' y).owners.contains cls) =
      (names.keysOf key).find? fun y => (holding y).owners.contains cls :=
    List.find?_congr fun y member => by rw [alike y member]
  rw [nameFor, nameFor, first, second]
  refine Option.map_congr fun y found => ?_
  have inside : y ∈ names.keysOf key := by
    rcases Option.or_eq_some_iff.1 found with found | ⟨-, found⟩
    · exact List.mem_of_find?_eq_some found
    · exact List.mem_of_find?_eq_some found
  rw [alike y inside]

variable [Ord α]

/-- A new member of a class makes no difference to other classes and other keys. -/
theorem nameFor_insert_of_ne (fresh : ∀ e ∈ names.entries, e.1 ≠ x)
    (isNew : holding x = ⟨n, d, id, [id]⟩) (other : cls = id → k ≠ key) :
    (names.insert x key).nameFor holding cls k = names.nameFor holding cls k := by
  have elsewhere (same : key = k) : id ≠ cls := fun here => other here.symm same.symm
  rw [nameFor, nameFor, find?_keysOf_insert fresh fun same => by simpa [isNew] using elsewhere same,
    find?_keysOf_insert fresh fun same => by simpa [isNew] using (elsewhere same).symm]

theorem nameFor_insert_self (isNew : holding x = ⟨n, d, id, [id]⟩)
    (free : (names.keysOf key).find? (fun y => (holding y).declaredBy == id) = none) :
    (names.insert x key).nameFor holding id key = some n := by
  rw [nameFor, find?_keysOf_insert_self free (by simp [isNew]), Option.some_or,
    Option.map_some, isNew]

/-- A new member whose name is the one that its key stands for, or else the one that is written,
settles its key. -/
theorem settles_insert {written : String} (fresh : ∀ e ∈ names.entries, e.1 ≠ x)
    (isNew : holding x = ⟨(names.nameFor holding id key).getD written, d, id, [id]⟩)
    (spelled : key.name = "~" ++ written)
    (free : (names.keysOf key).find? (fun y => (holding y).declaredBy == id) = none) (cls : ClassId)
    (k : MemberKey) :
    k.Settles (names.nameFor holding cls k) ((names.insert x key).nameFor holding cls k) := by
  by_cases here : cls = id ∧ k = key
  · obtain ⟨rfl, rfl⟩ := here
    rw [nameFor_insert_self isNew free]
    refine ⟨fun name found => by rw [found, Option.getD_some], fun none name found => ?_⟩
    rw [none, Option.getD_none] at found
    rwa [← Option.some.inj found]
  · rw [nameFor_insert_of_ne fresh isNew fun same other => here ⟨same, other⟩]
    exact .refl k _

end Table

namespace ClassSet

/-- Known classes and members keep their names, and known members the classes that declare and have
them. -/
structure KeepsMembers (set later : ClassSet) : Prop where
  cls : ∀ id, set.HasClass id → later.HasClass id ∧ (later.classAt id).name = (set.classAt id).name
  method : ∀ m, set.HasMethod m → later.HasMethod m ∧
    (later.methodAt m).holding = (set.methodAt m).holding
  field : ∀ f, set.HasField f → later.HasField f ∧
    (later.fieldAt f).holding = (set.fieldAt f).holding

namespace KeepsMembers

variable {set later latest : ClassSet}

theorem refl (set : ClassSet) : KeepsMembers set set :=
  ⟨fun _ h => ⟨h, rfl⟩, fun _ h => ⟨h, rfl⟩, fun _ h => ⟨h, rfl⟩⟩

theorem trans (first : KeepsMembers set later) (second : KeepsMembers later latest) :
    KeepsMembers set latest where
  cls id h :=
    have one := first.cls id h
    have two := second.cls id one.1
    ⟨two.1, two.2.trans one.2⟩
  method m h :=
    have one := first.method m h
    have two := second.method m one.1
    ⟨two.1, two.2.trans one.2⟩
  field f h :=
    have one := first.field f h
    have two := second.field f one.1
    ⟨two.1, two.2.trans one.2⟩

theorem modifyClass (set : ClassSet) (id : ClassId) {f : ClassEntry → ClassEntry}
    (same : ∀ c, (f c).name = c.name) :
    KeepsMembers set (set.modifyClass id f) :=
  ⟨fun other h => ⟨(set.hasClass_modifyClass id other f).2 h,
    set.classAt_modifyClass_same (·.name) same id other⟩, fun _ h => ⟨h, rfl⟩, fun _ h => ⟨h, rfl⟩⟩

theorem addClass (set : ClassSet) (c : ClassEntry) : KeepsMembers set (set.addClass c) :=
  ⟨fun _ h => ⟨set.hasClass_addClass c h, by rw [set.classAt_addClass_of_known c h]⟩,
    fun _ h => ⟨h, rfl⟩, fun _ h => ⟨h, rfl⟩⟩

theorem modifyMethod (set : ClassSet) (id : MethodId) {f : MethodEntry → MethodEntry}
    (same : ∀ m, (f m).holding = m.holding) : KeepsMembers set (set.modifyMethod id f) :=
  ⟨fun _ h => ⟨h, rfl⟩, fun m h => ⟨(set.hasMethod_modifyMethod id m f).2 h,
    set.methodAt_modifyMethod_same MethodEntry.holding same id m⟩, fun _ h => ⟨h, rfl⟩⟩

theorem modifyField (set : ClassSet) (id : FieldId) {f : FieldEntry → FieldEntry}
    (same : ∀ g, (f g).holding = g.holding) : KeepsMembers set (set.modifyField id f) :=
  ⟨fun _ h => ⟨h, rfl⟩, fun _ h => ⟨h, rfl⟩, fun g h => ⟨(set.hasField_modifyField id g f).2 h,
    set.fieldAt_modifyField_same FieldEntry.holding same id g⟩⟩

theorem removeMethod (set : ClassSet) (m : MethodId) : KeepsMembers set (set.removeMethod m) := by
  have hidden : KeepsMembers set (set.modifyMethod m fun m => { m with hidden := true }) :=
    .modifyMethod set m (f := fun m => { m with hidden := true }) fun _ => rfl
  refine ⟨fun id known => ⟨?_, ?_⟩, hidden.method, hidden.field⟩
  · simpa [HasClass, ClassSet.removeMethod, ClassSet.modifyMethod] using known
  · rw [set.classAt_removeMethod]

theorem removeField (set : ClassSet) (f : FieldId) : KeepsMembers set (set.removeField f) := by
  have hidden : KeepsMembers set (set.modifyField f fun f => { f with hidden := true }) :=
    .modifyField set f (f := fun f => { f with hidden := true }) fun _ => rfl
  exact hidden.trans (.modifyClass _ _ fun _ => rfl)

theorem addMethod (set : ClassSet) (id : ClassId) (m : MethodDecl) (hidden : Bool) :
    KeepsMembers set (set.addMethod id m hidden) := by
  have grown : Evolves .everything set (set.addMethod id m hidden) :=
    .addMethod trivial set m hidden
  refine ⟨fun x known => ⟨grown.hasClass x known, grown.names x known⟩,
    fun x known => ⟨grown.hasMethod x known, ?_⟩, fun _ h => ⟨h, rfl⟩⟩
  rw [set.methodAt_addMethod, if_neg (by rintro rfl; exact Nat.lt_irrefl _ known)]

theorem addField (set : ClassSet) (id : ClassId) (f : FieldDecl) (hidden : Bool) :
    KeepsMembers set (set.addField id f hidden) := by
  have grown : Evolves .everything set (set.addField id f hidden) := .addField trivial set f hidden
  refine ⟨fun x known => ⟨grown.hasClass x known, grown.names x known⟩, fun _ h => ⟨h, rfl⟩,
    fun x known => ⟨grown.hasField x known, ?_⟩⟩
  rw [set.fieldAt_addField, if_neg (by rintro rfl; exact Nat.lt_irrefl _ known)]

end KeepsMembers

end ClassSet

namespace Scope

/-- All that names stand for is known. -/
structure Within (scope : Scope) (set : ClassSet) : Prop where
  classes : scope.Knows set
  methods : ∀ e ∈ scope.methods.entries, set.HasMethod e.1
  fields : ∀ e ∈ scope.fields.entries, set.HasField e.1

variable {scope later : Scope} {set set' : ClassSet}

theorem Within.kept (within : scope.Within set) (kept : set.KeepsMembers set') :
    scope.Within set' :=
  ⟨fun key id found => (kept.cls id (within.classes key id found)).1,
    fun e member => (kept.method e.1 (within.methods e member)).1,
    fun e member => (kept.field e.1 (within.fields e member)).1⟩

def methodName? (scope : Scope) (set : ClassSet) : ClassId → MemberKey → Option String :=
  scope.methods.nameFor fun m => (set.methodAt m).holding

def fieldName? (scope : Scope) (set : ClassSet) : ClassId → MemberKey → Option String :=
  scope.fields.nameFor fun f => (set.fieldAt f).holding

theorem methodName?_eq (scope : Scope) (set : ClassSet) (cls : ClassId) (key : MemberKey) :
    scope.methodName? set cls key = (scope.method? set cls key).map fun m =>
      (set.methodAt m).name := by
  rw [method?_eq_or]
  rfl

theorem fieldName?_eq (scope : Scope) (set : ClassSet) (cls : ClassId) (key : MemberKey) :
    scope.fieldName? set cls key = (scope.field? set cls key).map fun f =>
      (set.fieldAt f).name := by
  rw [field?_eq_or]
  rfl

theorem methodName?_of_keepsMembers (scope : Scope) (within : scope.Within set)
    (kept : set.KeepsMembers set') :
    scope.methodName? set' = scope.methodName? set := by
  funext cls key
  exact Table.nameFor_congr (fun e member => (kept.method e.1 (within.methods e member)).2) cls key

theorem fieldName?_of_keepsMembers (scope : Scope) (within : scope.Within set)
    (kept : set.KeepsMembers set') :
    scope.fieldName? set' = scope.fieldName? set := by
  funext cls key
  exact Table.nameFor_congr (fun e member => (kept.field e.1 (within.fields e member)).2) cls key

theorem methodName?_congr (within : scope.Within set) (kept : set.KeepsMembers set')
    (same : later.methods = scope.methods) : later.methodName? set' = scope.methodName? set := by
  rw [← scope.methodName?_of_keepsMembers within kept, methodName?, same, methodName?]

theorem fieldName?_congr (within : scope.Within set) (kept : set.KeepsMembers set')
    (same : later.fields = scope.fields) : later.fieldName? set' = scope.fieldName? set := by
  rw [← scope.fieldName?_of_keepsMembers within kept, fieldName?, same, fieldName?]

end Scope

namespace Scope

variable {scope : Scope}

/-- A new method gets a key unless the key stands for another one that the class declares. -/
theorem bindMethod?_of_fresh (set : ClassSet) (id : ClassId) (key : MemberKey) {m : MethodId}
    (fresh : ∀ e ∈ scope.methods.entries, e.1 ≠ m) :
    (scope.bindMethod? set id key m = none ∧ (scope.method? set id key).isSome = true) ∨
      scope.bindMethod? set id key m = some { scope with methods := scope.methods.insert m key } ∧
        (scope.methods.keysOf key).find? (fun x => (set.methodAt x).declaredBy == id) = none := by
  rw [bindMethod?, Table.get?_eq_none_of_fresh fresh]
  dsimp only
  cases first : (scope.methods.keysOf key).find? fun x => (set.methodAt x).declaredBy == id with
  | some x =>
    have stands : scope.method? set id key = some x := by rw [method?_eq_or, first, Option.some_or]
    have other : x ≠ m := fresh _ (Table.mem_keysOf.1 (List.mem_of_find?_eq_some first))
    have own := List.find?_some first
    rw [stands, Option.any_some, if_pos (by simp [other, eq_of_beq own])]
    exact .inl ⟨rfl, rfl⟩
  | none =>
    refine .inr ⟨if_neg fun taken => ?_, rfl⟩
    obtain ⟨x, stands, own⟩ := (Option.any_eq_true _ _).1 taken
    rw [method?_eq_or, first, Option.none_or] at stands
    exact List.find?_eq_none.1 first x (List.mem_of_find?_eq_some stands)
      (Bool.and_eq_true_iff.1 own).2

/-- A new field gets a key unless the key stands for another one that the class declares. -/
theorem bindField?_of_fresh (set : ClassSet) (id : ClassId) (key : MemberKey) {f : FieldId}
    (fresh : ∀ e ∈ scope.fields.entries, e.1 ≠ f) :
    (scope.bindField? set id key f = none ∧ (scope.field? set id key).isSome = true) ∨
      scope.bindField? set id key f = some { scope with fields := scope.fields.insert f key } ∧
        (scope.fields.keysOf key).find? (fun x => (set.fieldAt x).declaredBy == id) = none := by
  rw [bindField?, Table.get?_eq_none_of_fresh fresh]
  dsimp only
  cases first : (scope.fields.keysOf key).find? fun x => (set.fieldAt x).declaredBy == id with
  | some x =>
    have stands : scope.field? set id key = some x := by rw [field?_eq_or, first, Option.some_or]
    have other : x ≠ f := fresh _ (Table.mem_keysOf.1 (List.mem_of_find?_eq_some first))
    have own := List.find?_some first
    rw [stands, Option.any_some, if_pos (by simp [other, eq_of_beq own])]
    exact .inl ⟨rfl, rfl⟩
  | none =>
    refine .inr ⟨if_neg fun taken => ?_, rfl⟩
    obtain ⟨x, stands, own⟩ := (Option.any_eq_true _ _).1 taken
    rw [field?_eq_or, first, Option.none_or] at stands
    exact List.find?_eq_none.1 first x (List.mem_of_find?_eq_some stands)
      (Bool.and_eq_true_iff.1 own).2

end Scope

theorem Scope.method?_eq_none_iff {scope : Scope} {set : ClassSet} {cls : ClassId}
    {key : MemberKey} :
    scope.method? set cls key = none ↔ ∀ m ∈ scope.methodsOf key, ¬set.HoldsMethod cls m := by
  rw [method?_eq_or, Option.or_eq_none_iff, List.find?_eq_none, List.find?_eq_none, ← forall₂_and]
  refine forall₂_congr fun m _ => ?_
  simp [ClassSet.HoldsMethod]

theorem ClassSet.holdsMethod_congr {set later : ClassSet} {m : MethodId}
    (same : (later.methodAt m).holding = (set.methodAt m).holding) {cls : ClassId} :
    later.HoldsMethod cls m ↔ set.HoldsMethod cls m := by
  have declares : (later.methodAt m).declaredBy = (set.methodAt m).declaredBy :=
    congrArg Holding.declaredBy same
  have owners : (later.methodAt m).owners = (set.methodAt m).owners := congrArg Holding.owners same
  rw [HoldsMethod, HoldsMethod, declares, owners]

/-- A key stands for a method of a name that a class neither declares nor has. -/
def Scope.Lends (scope : Scope) (set : ClassSet) (cls : ClassId) (key : MemberKey)
    (name : String) : Prop :=
  ∃ m ∈ scope.methodsOf key, ¬set.HoldsMethod cls m ∧ (set.methodAt m).name = name

theorem Ident.text_of_isBindable {ident : Ident} (bindable : ident.isBindable = true) :
    ident.text = "~" ++ ident.name := by
  rw [text, if_pos (Bool.and_eq_true_iff.1 bindable).1]

end JvmPatch
