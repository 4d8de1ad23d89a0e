import JvmPatch.Proofs.Apply.Deletion
import JvmPatch.Proofs.Apply.Frame

/-! What the lines of a script that remove something take out of the classes. An interface leaves if
the last line about it removes it, a field if it is assigned to a line that removes it, and of the
methods with a signature as many as there are blocks that remove one. Lines can share what they
remove: only weak names are claimed. -/

set_option autoImplicit false

namespace JvmPatch

open ApplyM

def FieldLine.removed (l : FieldLine) (choice : Option FieldId) : List FieldId :=
  if l.mode = .remove then choice.toList else []

def MethodBlock.removed (block : MethodBlock) (choice : Option MethodId) : List MethodId :=
  if block.mode = .remove then choice.toList else []

namespace ClassBlock

/-- The fields that are assigned to the lines of a block that remove one. -/
def removedFields (block : ClassBlock) (choice : ClassChoice) : List FieldId :=
  (block.fields.zip choice.fields).flatMap fun e => e.1.removed e.2

/-- The methods that are assigned to the method blocks of a block that remove one. -/
def removedMethods (block : ClassBlock) (choice : ClassChoice) : List MethodId :=
  (block.methods.zip choice.methods).flatMap fun e => e.1.removed e.2

end ClassBlock

/-- The last of some lines that adds or removes an interface. -/
def lastAbout (s : ApplyState) (name : String) (ls : List SupertypeLine) : Option SupertypeLine :=
  (ls.filter fun l => l.mode != .keep &&
    (s.scope.mapClass s.classes l.ident.text).toOption == some name).getLast?

def ClassSet.withSignature (set : ClassSet) (name desc : String) (ms : List MethodId) :
    Finset MethodId :=
  (ms.filter fun m => (set.methodAt m).hasSignature name desc).toFinset

/-- What leaves a class because of a block. -/
structure TakesOut (block : ClassBlock) (choice : ClassChoice) (id : ClassId) (s t : ApplyState) :
    Prop where
  interfaces : ∀ name ∈ (s.classes.classAt id).interfaces,
    (name ∉ (t.classes.classAt id).interfaces ↔
      ∃ l, lastAbout s name block.interfaces = some l ∧ l.mode = .remove)
  fields : ∀ f ∈ (s.classes.classAt id).fields,
    (f ∉ (t.classes.classAt id).fields ↔ f ∈ block.removedFields choice)
  methods : ∀ name desc,
    let declared := s.classes.withSignature name desc (s.classes.classAt id).methods
    (declared \ (t.classes.classAt id).methods.toFinset).card =
      min ((block.removedMethods choice).countP fun m =>
        (s.classes.methodAt m).hasSignature name desc) declared.card

/-- The steps of a run lead from one state to the next. -/
inductive Chained {α : Type} (step : α → ApplyState → ApplyState → Prop) :
    List α → ApplyState → ApplyState → Prop
  | nil (s : ApplyState) : Chained step [] s s
  | cons {x : α} {xs : List α} {s u t : ApplyState} : step x s u → Chained step xs u t →
      Chained step (x :: xs) s t

namespace Chained

variable {α β : Type} {step : α → ApplyState → ApplyState → Prop} {s t : ApplyState}

theorem of_mapM {may : ClassSet.Permit} {f : α → ApplyM β} {xs : List α} {ys : List β}
    (changes : ∀ x ∈ xs, Changes may (f x))
    (each : ∀ x ∈ xs, ∀ u v y, Changed may s u → (f x).run u = .ok y v → step x u v)
    (h : (xs.mapM f).run s = .ok ys t) : Chained step xs s t := by
  induction xs generalizing s ys with
  | nil =>
    cases h
    exact .nil _
  | cons x xs ih =>
    rw [List.mapM_cons] at h
    obtain ⟨y, u, one, h⟩ := run_bind_ok h
    obtain ⟨rest, v, more, done⟩ := run_bind_ok h
    cases done
    have first := (changes x List.mem_cons_self s).ok one
    refine .cons (each x List.mem_cons_self s u y (.refl may s) one) ?_
    exact ih (fun z member => changes z (.tail _ member))
      (fun z member u' v' y' reached => each z (.tail _ member) u' v' y' (first.trans reached)) more

theorem of_forM {f : α → ApplyM Unit} {xs : List α}
    (each : ∀ x ∈ xs, ∀ u v, (f x).run u = .ok () v → step x u v)
    (h : (xs.forM f).run s = .ok () t) : Chained step xs s t := by
  induction xs generalizing s with
  | nil =>
    cases h
    exact .nil _
  | cons x xs ih =>
    obtain ⟨_, u, one, rest⟩ := run_bind_ok h
    exact .cons (each x List.mem_cons_self s u one)
      (ih (fun z member => each z (.tail _ member)) rest)

/-- What every step keeps holds at the end. -/
theorem keeps {P : ApplyState → Prop} {xs : List α} (chained : Chained step xs s t)
    (each : ∀ x ∈ xs, ∀ u v, step x u v → P u → P v) (holds : P s) : P t := by
  induction chained with
  | nil => exact holds
  | cons one _ ih =>
    exact ih (fun x member => each x (.tail _ member)) (each _ List.mem_cons_self _ _ one holds)

end Chained

/-- A class has the same members as before, and names mean the same. -/
structure SameMembers (id : ClassId) (s t : ApplyState) : Prop where
  scope : t.scope = s.scope
  names : ∀ cls, (t.classes.classAt cls).name = (s.classes.classAt cls).name
  hasClass : s.classes.HasClass id → t.classes.HasClass id
  fields : (t.classes.classAt id).fields = (s.classes.classAt id).fields
  methods : (t.classes.classAt id).methods = (s.classes.classAt id).methods

namespace SameMembers

variable {id : ClassId} {s t u : ApplyState}

theorem refl (id : ClassId) (s : ApplyState) : SameMembers id s s :=
  ⟨rfl, fun _ => rfl, fun known => known, rfl, rfl⟩

theorem trans (first : SameMembers id s t) (second : SameMembers id t u) : SameMembers id s u :=
  ⟨second.scope.trans first.scope, fun cls => (second.names cls).trans (first.names cls),
    fun known => second.hasClass (first.hasClass known), second.fields.trans first.fields,
    second.methods.trans first.methods⟩

theorem of_modifyClass (id : ClassId) (s : ApplyState) {f : ClassEntry → ClassEntry}
    (name : ∀ c, (f c).name = c.name) (fields : ∀ c, (f c).fields = c.fields)
    (methods : ∀ c, (f c).methods = c.methods) :
    SameMembers id s { s with classes := s.classes.modifyClass id f } where
  scope := rfl
  names := s.classes.classAt_modifyClass_same (·.name) name id
  hasClass := (s.classes.hasClass_modifyClass id id f).2
  fields := s.classes.classAt_modifyClass_same (·.fields) fields id id
  methods := s.classes.classAt_modifyClass_same (·.methods) methods id id

theorem mapClass_eq (same : SameMembers id s t) (name : String) :
    t.scope.mapClass t.classes name = s.scope.mapClass s.classes name := by
  unfold Scope.mapClass
  rw [same.scope]
  simp only [same.names]

theorem lastAbout_eq (same : SameMembers id s t) (name : String) (ls : List SupertypeLine) :
    lastAbout t name ls = lastAbout s name ls := by
  unfold lastAbout
  simp only [same.mapClass_eq]

end SameMembers

namespace ApplyM

variable {s t : ApplyState}

theorem applySuper_ok {line : Nat} {id : ClassId} {l : SupertypeLine}
    (h : (applySuper line id l).run s = .ok () t) :
    SameMembers id s t ∧
      (t.classes.classAt id).interfaces = (s.classes.classAt id).interfaces := by
  have become : ∀ name : String, ∀ {u : ApplyState},
      (modifyClasses fun set => set.modifyClass id fun c =>
        { c with superName := some name, modified := true }).run s = .ok () u →
      SameMembers id s u ∧
        (u.classes.classAt id).interfaces = (s.classes.classAt id).interfaces := by
    intro name u h
    cases h
    refine ⟨.of_modifyClass id s ?_ ?_ ?_, ?_⟩
    · exact fun _ => rfl
    · exact fun _ => rfl
    · exact fun _ => rfl
    · exact s.classes.classAt_modifyClass_same (·.interfaces)
        (f := fun c => { c with superName := some name, modified := true }) (fun _ => rfl) id id
  unfold applySuper at h
  dsimp only at h
  split at h
  · cases h
    exact ⟨.refl id _, rfl⟩
  · obtain ⟨name, u, named, rest⟩ := run_bind_ok h
    obtain ⟨-, rfl⟩ := mapped_ok named
    exact become name rest
  · split at h
    · exact become objectClass h
    · obtain ⟨name, u, named, rest⟩ := run_bind_ok h
      obtain ⟨-, rfl⟩ := mapped_ok named
      obtain ⟨start, v, got, rest⟩ := run_bind_ok rest
      cases got
      split at rest
      · exact become objectClass rest
      · cases rest
        exact ⟨.refl id _, rfl⟩

/-- What a line does to the interfaces of a class. -/
theorem applyInterface_ok {line : Nat} {id : ClassId} {l : SupertypeLine}
    (h : (applyInterface line id l).run s = .ok () t) :
    SameMembers id s t ∧ (s.classes.HasClass id →
      ∀ name, name ∈ (t.classes.classAt id).interfaces ↔
        match lastAbout s name [l] with
        | some l => l.mode = .add
        | none => name ∈ (s.classes.classAt id).interfaces) := by
  have become : ∀ (f : List String → List String) {u : ApplyState},
      (modifyClasses fun set => set.modifyClass id fun c =>
        { c with interfaces := f c.interfaces, modified := true }).run s = .ok () u →
      SameMembers id s u ∧ (s.classes.HasClass id →
        (u.classes.classAt id).interfaces = f (s.classes.classAt id).interfaces) := by
    intro f u h
    cases h
    refine ⟨.of_modifyClass id s ?_ ?_ ?_, fun known => ?_⟩
    · exact fun _ => rfl
    · exact fun _ => rfl
    · exact fun _ => rfl
    · exact congrArg (·.interfaces) (s.classes.classAt_modifyClass_self
        (fun c => { c with interfaces := f c.interfaces, modified := true }) known)
  unfold applyInterface at h
  dsimp only at h
  cases mode : l.mode with
  | keep =>
    simp only [mode] at h
    cases h
    refine ⟨.refl id _, fun _ name => ?_⟩
    simp [lastAbout, mode]
  | add =>
    simp only [mode] at h
    obtain ⟨named, u, isNamed, rest⟩ := run_bind_ok h
    obtain ⟨means, rfl⟩ := mapped_ok isNamed
    obtain ⟨same, interfaces⟩ := become
      (fun names => if names.contains named then names else names ++ [named]) rest
    refine ⟨same, fun known name => ?_⟩
    rw [interfaces known]
    by_cases about : name = named
    · subst about
      simp only [lastAbout, mode, means, Except.toOption, List.filter_cons, List.filter_nil]
      by_cases old : name ∈ (u.classes.classAt id).interfaces <;> simp [old, mode]
    · have other : ¬named = name := fun same => about same.symm
      simp only [lastAbout, mode, means, Except.toOption, List.filter_cons, List.filter_nil]
      split <;> simp [about, other]
  | remove =>
    simp only [mode] at h
    obtain ⟨named, u, isNamed, rest⟩ := run_bind_ok h
    obtain ⟨means, rfl⟩ := mapped_ok isNamed
    obtain ⟨same, interfaces⟩ := become (fun names => names.filter (· != named)) rest
    refine ⟨same, fun known name => ?_⟩
    rw [interfaces known]
    by_cases about : name = named
    · subst about
      simp [lastAbout, mode, means, Except.toOption]
    · have other : ¬named = name := fun same => about same.symm
      simp [lastAbout, mode, means, Except.toOption, about, other]

theorem applySupers_ok {line : Nat} {id : ClassId} {ls : List SupertypeLine}
    (h : (ls.forM (applySuper line id)).run s = .ok () t) :
    SameMembers id s t ∧
      (t.classes.classAt id).interfaces = (s.classes.classAt id).interfaces := by
  induction ls generalizing s with
  | nil =>
    cases h
    exact ⟨.refl id _, rfl⟩
  | cons l ls ih =>
    obtain ⟨_, u, one, rest⟩ := run_bind_ok h
    obtain ⟨first, interfaces⟩ := applySuper_ok one
    obtain ⟨more, interfaces'⟩ := ih rest
    exact ⟨first.trans more, interfaces'.trans interfaces⟩

theorem lastAbout_cons (s : ApplyState) (name : String) (l : SupertypeLine)
    (ls : List SupertypeLine) :
    lastAbout s name (l :: ls) = (lastAbout s name ls).or (lastAbout s name [l]) := by
  unfold lastAbout
  rw [List.filter_cons, List.filter_cons, List.filter_nil]
  split
  · rw [List.getLast?_cons]
    cases (ls.filter _).getLast? <;> rfl
  · rw [List.getLast?_nil, Option.or_none]

/-- The last line about an interface decides whether a class has it afterwards. -/
theorem applyInterfaces_ok {line : Nat} {id : ClassId} {ls : List SupertypeLine}
    (h : (ls.forM (applyInterface line id)).run s = .ok () t) :
    SameMembers id s t ∧ (s.classes.HasClass id →
      ∀ name, name ∈ (t.classes.classAt id).interfaces ↔
        match lastAbout s name ls with
        | some l => l.mode = .add
        | none => name ∈ (s.classes.classAt id).interfaces) := by
  induction ls generalizing s with
  | nil =>
    cases h
    exact ⟨.refl id _, fun _ name => Iff.rfl⟩
  | cons l ls ih =>
    obtain ⟨_, u, one, rest⟩ := run_bind_ok h
    obtain ⟨first, decides⟩ := applyInterface_ok one
    obtain ⟨more, decides'⟩ := ih rest
    refine ⟨first.trans more, fun known name => ?_⟩
    rw [decides' (first.hasClass known) name, first.lastAbout_eq, lastAbout_cons]
    cases lastAbout s name ls with
    | none => exact decides known name
    | some last => exact Iff.rfl

end ApplyM

namespace ClassSet

variable (set : ClassSet)

/-- What a class lists after a modification that treats an empty list as one would expect. -/
theorem list_modifyClass {α : Type} (part : ClassEntry → List α) (id : ClassId)
    {f : ClassEntry → ClassEntry} {g : List α → List α} (changes : ∀ c, part (f c) = g (part c))
    (empty : part default = []) (nil : g [] = []) :
    part ((set.modifyClass id f).classAt id) = g (part (set.classAt id)) := by
  by_cases known : set.HasClass id
  · rw [set.classAt_modifyClass_self f known, changes]
  · have unknown : ∀ set : ClassSet, ¬set.HasClass id → set.classAt id = default := by
      intro set unknown
      rw [classAt, Array.getElem?_eq_none (Nat.not_lt.1 unknown)]
      rfl
    rw [unknown set known, unknown _ fun h => known ((set.hasClass_modifyClass id id f).1 h), empty,
      nil]

theorem fields_removeField {id : ClassId} {f : FieldId} (own : (set.fieldAt f).declaredBy = id) :
    ((set.removeField f).classAt id).fields = (set.classAt id).fields.filter (· != f) := by
  have owner := set.fieldAt_modifyField_same (·.declaredBy)
    (f := fun e => { e with hidden := true }) (fun _ => rfl) f f
  unfold removeField
  dsimp only
  rw [owner, own]
  exact list_modifyClass _ (·.fields) id (fun _ => rfl) rfl rfl

theorem part_removeField {α : Type} (part : ClassEntry → α)
    (same : ∀ c fields, part { c with fields := fields } = part c) (f : FieldId) (id : ClassId) :
    part ((set.removeField f).classAt id) = part (set.classAt id) :=
  classAt_modifyClass_same _ part (fun _ => same _ _) _ id

theorem part_addField {α : Type} (part : ClassEntry → α)
    (same : ∀ c fields, part { c with fields := fields } = part c) (cls : ClassId) (f : FieldDecl)
    (hidden : Bool) (id : ClassId) :
    part ((set.addField cls f hidden).classAt id) = part (set.classAt id) :=
  classAt_modifyClass_same _ part (fun _ => same _ _) _ id

/-- Of the fields that are known before, adding one changes none. -/
theorem mem_fields_addField {id : ClassId} (decl : FieldDecl) (hidden : Bool) {f : FieldId}
    (known : set.HasField f) :
    f ∈ ((set.addField id decl hidden).classAt id).fields ↔ f ∈ (set.classAt id).fields := by
  have old : f ≠ set.nextField := by
    rintro rfl
    exact Nat.lt_irrefl _ known
  unfold addField
  dsimp only
  rcases Evolves.classAt_modifyClass_cases _ id _ id with same | ⟨-, changed⟩
  · rw [same]
    exact Iff.rfl
  · rw [changed]
    simp only [List.mem_append, List.mem_singleton, old, or_false]
    exact Iff.rfl

theorem part_addMethod {α : Type} (part : ClassEntry → α)
    (same : ∀ c methods view, part { c with methods := methods, view := view } = part c)
    (cls : ClassId) (m : MethodDecl) (hidden : Bool) (id : ClassId) :
    part ((set.addMethod cls m hidden).classAt id) = part (set.classAt id) :=
  classAt_modifyClass_same _ part (fun _ => same _ _ _) _ id

theorem methods_addMethod (id : ClassId) (m : MethodDecl) (hidden : Bool) :
    ∃ new, ((set.addMethod id m hidden).classAt id).methods = (set.classAt id).methods ++ new ∧
      ∀ m ∈ new, ¬set.HasMethod m := by
  unfold addMethod
  dsimp only
  rcases Evolves.classAt_modifyClass_cases _ id _ id with same | ⟨-, changed⟩
  · rw [same]
    exact ⟨[], (List.append_nil _).symm, fun _ member => nomatch member⟩
  · rw [changed]
    refine ⟨[set.nextMethod], rfl, fun m member known => ?_⟩
    obtain rfl := List.mem_singleton.1 member
    exact Nat.lt_irrefl _ known

end ClassSet

namespace ApplyM

variable {s t : ApplyState}

/-- Marking a class changes no list. -/
theorem part_touch {α : Type} (part : ClassEntry → α)
    (same : ∀ c, part { c with modified := true } = part c) (set : ClassSet) (cls id : ClassId) :
    part ((set.modifyClass cls fun c => { c with modified := true }).classAt id) =
      part (set.classAt id) :=
  set.classAt_modifyClass_same part same cls id

/-- The class with an added field, and the names afterwards. -/
theorem addField_result {id : ClassId} {l : FieldLine} {f : FieldId}
    (h : (addField id l).run s = .ok f t) :
    let bound := (s.scope.field? s.classes id (.of l.ident l.desc)).map fun f =>
      (s.classes.fieldAt f).name
    ∃ type, s.scope.mapType s.classes l.type = .ok type ∧ f = s.classes.nextField ∧
      let added := s.classes.addField id ⟨bound.getD l.ident.name, type.text, l.access,
        l.value⟩ false
      t.classes = (added.modifyClass id fun c => { c with modified := true }) ∧
        t.scope = if l.ident.isBindable then
          (s.scope.bindField? added id (.of l.ident l.desc) f).getD s.scope
          else s.scope := by
  obtain ⟨start, u, got, h⟩ := run_bind_ok h
  cases got
  dsimp only at h
  obtain ⟨type, u, isMapped, rest⟩ := run_bind_ok h
  obtain ⟨means, rfl⟩ := mapped_ok isMapped
  obtain ⟨_, v, added, rest⟩ := run_bind_ok rest
  cases added
  refine ⟨type, means, ?_⟩
  split at rest
  · obtain ⟨_, w, bound, rest⟩ := run_bind_ok rest
    cases bound
    cases rest
    exact ⟨rfl, rfl, (if_pos ‹_›).symm⟩
  · cases rest
    exact ⟨rfl, rfl, (if_neg ‹_›).symm⟩

theorem addField_ok {id : ClassId} {l : FieldLine} {f : FieldId}
    (h : (addField id l).run s = .ok f t) :
    f = s.classes.nextField ∧
      ∃ decl, t.classes = (s.classes.addField id decl false).modifyClass id fun c =>
      { c with modified := true } := by
  obtain ⟨_, -, isNext, classes, -⟩ := addField_result h
  exact ⟨isNext, _, classes⟩

/-- What a line does to the fields that a class had. -/
theorem applyField_ok {block : ClassBlock} {id : ClassId} {l : FieldLine}
    {choice result : Option FieldId}
    (own : ∀ f, choice = some f → (s.classes.fieldAt f).declaredBy = id)
    (h : (applyField block id l choice).run s = .ok result t) :
    ((t.classes.classAt id).interfaces = (s.classes.classAt id).interfaces ∧
      (t.classes.classAt id).methods = (s.classes.classAt id).methods) ∧
      ∀ f, s.classes.HasField f → (f ∈ (t.classes.classAt id).fields ↔
        f ∈ (s.classes.classAt id).fields ∧ f ∉ l.removed choice) := by
  unfold applyField at h
  cases mode : l.mode with
  | keep =>
    simp only [mode] at h
    cases h
    exact ⟨⟨rfl, rfl⟩, fun f _ => by simp [FieldLine.removed, mode]⟩
  | remove =>
    simp only [mode] at h
    obtain ⟨field, u, found, rest⟩ := run_bind_ok h
    obtain ⟨rfl, rfl⟩ := run_assigned_ok found
    cases rest
    refine ⟨⟨?_, ?_⟩, fun f _ => ?_⟩
    · refine (part_touch (·.interfaces) (fun _ => rfl) _ id id).trans ?_
      exact u.classes.part_removeField (·.interfaces) (fun _ _ => rfl) field id
    · refine (part_touch (·.methods) (fun _ => rfl) _ id id).trans ?_
      exact u.classes.part_removeField (·.methods) (fun _ _ => rfl) field id
    · have fields := (part_touch (·.fields) (fun _ => rfl) _ id id).trans
        (u.classes.fields_removeField (own field rfl))
      change f ∈ ((ClassSet.modifyClass (u.classes.removeField field) id _).classAt id).fields ↔ _
      rw [fields]
      simp only [FieldLine.removed, mode, if_true, Option.toList_some, List.mem_filter,
        List.mem_singleton, bne_iff_ne, ne_eq]
  | add =>
    simp only [mode] at h
    obtain ⟨field, u, added, done⟩ := run_bind_ok h
    obtain ⟨-, decl, classes⟩ := addField_ok added
    cases done
    rw [classes]
    refine ⟨⟨?_, ?_⟩, fun f known => ?_⟩
    · refine (part_touch (·.interfaces) (fun _ => rfl) _ id id).trans ?_
      exact s.classes.part_addField (·.interfaces) (fun _ _ => rfl) id decl false id
    · refine (part_touch (·.methods) (fun _ => rfl) _ id id).trans ?_
      exact s.classes.part_addField (·.methods) (fun _ _ => rfl) id decl false id
    · have fields := part_touch (·.fields) (fun _ => rfl) (s.classes.addField id decl false) id id
      rw [fields, s.classes.mem_fields_addField decl false known]
      simp [FieldLine.removed, mode]

/-- The fields that a class had and has no more are those that are assigned to lines that remove
one. -/
theorem applyFields_ok {b : ClassSet} {block : ClassBlock} {id : ClassId}
    {es : List (FieldLine × Option FieldId)} {results : List (Option FieldId)}
    (reached : ClassSet.Evolves .declarations b s.classes)
    (own : ∀ e ∈ es, ∀ f, e.2 = some f → b.HasField f ∧ (b.fieldAt f).declaredBy = id)
    (h : (es.mapM fun e => applyField block id e.1 e.2).run s = .ok results t) :
    ((t.classes.classAt id).interfaces = (s.classes.classAt id).interfaces ∧
      (t.classes.classAt id).methods = (s.classes.classAt id).methods) ∧
      ∀ f, b.HasField f → (f ∈ (t.classes.classAt id).fields ↔
        f ∈ (s.classes.classAt id).fields ∧ f ∉ es.flatMap fun e => e.1.removed e.2) := by
  induction es generalizing s results with
  | nil =>
    cases h
    exact ⟨⟨rfl, rfl⟩, fun f _ => by simp⟩
  | cons e es ih =>
    rw [List.mapM_cons] at h
    obtain ⟨y, u, one, h⟩ := run_bind_ok h
    obtain ⟨rest, v, more, done⟩ := run_bind_ok h
    cases done
    have ownHere : ∀ f, e.2 = some f → (s.classes.fieldAt f).declaredBy = id := by
      intro f isField
      obtain ⟨known, owner⟩ := own e List.mem_cons_self f isField
      exact (reached.field f known).2.trans owner
    have changed := (Changes.applyField block id e.1 e.2 s).ok one
    obtain ⟨⟨interfaces, methods⟩, fields⟩ := applyField_ok ownHere one
    obtain ⟨⟨interfaces', methods'⟩, fields'⟩ := ih (reached.trans changed.classes)
      (fun e member => own e (.tail _ member)) more
    refine ⟨⟨interfaces'.trans interfaces, methods'.trans methods⟩, fun f known => ?_⟩
    rw [fields' f known, fields f (reached.hasField f known), List.flatMap_cons, List.mem_append,
      not_or, and_assoc]

end ApplyM

namespace ClassSet

/-- The declared methods that are left when the first one with the signature of a method goes. -/
def dropFirst (set : ClassSet) (ms : List MethodId) (handle : MethodId) : List MethodId :=
  match ms.find? fun m => (set.methodAt m).hasSignature (set.methodAt handle).name
    (set.methodAt handle).desc with
  | some m => ms.filter (· != m)
  | none => ms

variable (set : ClassSet)

theorem mem_foldl_dropFirst {ms hs : List MethodId} {m : MethodId}
    (member : m ∈ hs.foldl set.dropFirst ms) : m ∈ ms := by
  induction hs generalizing ms with
  | nil => exact member
  | cons h hs ih =>
    have inside := ih member
    unfold dropFirst at inside
    split at inside
    · exact (List.mem_filter.1 inside).1
    · exact inside

theorem mem_withSignature {name desc : String} {ms : List MethodId} {m : MethodId} :
    m ∈ set.withSignature name desc ms ↔
      m ∈ ms ∧ (set.methodAt m).hasSignature name desc = true := by
  rw [withSignature, List.mem_toFinset, List.mem_filter]

theorem hasSignature_iff (m : MethodEntry) (name desc : String) :
    m.hasSignature name desc = true ↔ m.name = name ∧ m.desc = desc := by
  simp [MethodEntry.hasSignature]

/-- Of the methods with a signature one goes with a method of the signature, and none with
another. -/
theorem withSignature_dropFirst (name desc : String) (ms : List MethodId) (handle : MethodId) :
    (set.withSignature name desc (set.dropFirst ms handle) = set.withSignature name desc ms ∧
        ((set.methodAt handle).hasSignature name desc = true →
          set.withSignature name desc ms = ∅)) ∨
      (set.methodAt handle).hasSignature name desc = true ∧
        ∃ m ∈ set.withSignature name desc ms, m ∉ set.dropFirst ms handle ∧
          set.withSignature name desc (set.dropFirst ms handle) =
            (set.withSignature name desc ms).erase m := by
  unfold dropFirst
  cases first : ms.find? fun m => (set.methodAt m).hasSignature (set.methodAt handle).name
      (set.methodAt handle).desc with
  | none =>
    refine .inl ⟨rfl, fun same => ?_⟩
    obtain ⟨rfl, rfl⟩ := (hasSignature_iff _ _ _).1 same
    refine Finset.eq_empty_of_forall_notMem fun m member => ?_
    obtain ⟨inside, has⟩ := set.mem_withSignature.1 member
    exact List.find?_eq_none.1 first m inside has
  | some m =>
    have inside := List.mem_of_find?_eq_some first
    have isFirst := List.find?_some first
    by_cases same : (set.methodAt handle).hasSignature name desc = true
    · obtain ⟨rfl, rfl⟩ := (hasSignature_iff _ _ _).1 same
      refine .inr ⟨same, m, set.mem_withSignature.2 ⟨inside, isFirst⟩, by simp, ?_⟩
      ext x
      simp only [mem_withSignature, Finset.mem_erase, List.mem_filter, bne_iff_ne, ne_eq]
      exact ⟨fun ⟨⟨h, different⟩, has⟩ => ⟨different, h, has⟩,
        fun ⟨different, h, has⟩ => ⟨⟨h, different⟩, has⟩⟩
    · refine .inl ⟨?_, fun has => absurd has same⟩
      ext x
      simp only [mem_withSignature, List.mem_filter, bne_iff_ne, ne_eq]
      refine ⟨fun ⟨⟨h, _⟩, has⟩ => ⟨h, has⟩, fun ⟨h, has⟩ => ⟨⟨h, ?_⟩, has⟩⟩
      rintro rfl
      obtain ⟨name', desc'⟩ := (hasSignature_iff _ _ _).1 isFirst
      obtain ⟨rfl, rfl⟩ := (hasSignature_iff _ _ _).1 has
      exact same ((hasSignature_iff _ _ _).2 ⟨name'.symm, desc'.symm⟩)

/-- As many methods of a signature go as there are methods of the signature to go with. -/
theorem card_foldl_dropFirst (name desc : String) (ms hs : List MethodId) :
    (set.withSignature name desc ms \ (hs.foldl set.dropFirst ms).toFinset).card =
      min (hs.countP fun m => (set.methodAt m).hasSignature name desc)
        (set.withSignature name desc ms).card := by
  induction hs generalizing ms with
  | nil =>
    have none : set.withSignature name desc ms \ ms.toFinset = ∅ :=
      Finset.sdiff_eq_empty_iff_subset.2 fun m member =>
        List.mem_toFinset.2 (set.mem_withSignature.1 member).1
    rw [List.foldl_nil, none]
    simp
  | cons handle hs ih =>
    have rest := ih (set.dropFirst ms handle)
    rw [List.foldl_cons, List.countP_cons]
    rcases set.withSignature_dropFirst name desc ms handle with
      ⟨same, empty⟩ | ⟨has, m, inside, gone, erased⟩
    · rw [same] at rest
      by_cases has : (set.methodAt handle).hasSignature name desc = true
      · simp [empty has]
      · rw [if_neg has, Nat.add_zero, rest]
    · have split : set.withSignature name desc ms \
          (hs.foldl set.dropFirst (set.dropFirst ms handle)).toFinset =
          insert m ((set.withSignature name desc ms).erase m \
            (hs.foldl set.dropFirst (set.dropFirst ms handle)).toFinset) := by
        have out : m ∉ (hs.foldl set.dropFirst (set.dropFirst ms handle)).toFinset :=
          fun member => gone (set.mem_foldl_dropFirst (List.mem_toFinset.1 member))
        rw [← Finset.insert_sdiff_of_notMem _ out, Finset.insert_erase inside]
      have positive := Finset.card_pos.2 ⟨m, inside⟩
      rw [erased, Finset.card_erase_of_mem inside] at rest
      rw [split, Finset.card_insert_of_notMem (by simp), rest, if_pos has]
      omega

end ClassSet

namespace ApplyM

variable {s t : ApplyState} {b : ClassSet} {id : ClassId} {ms : List MethodId}

/-- The methods that a class declares are known ones, and after them new ones. -/
structure Lists (b : ClassSet) (id : ClassId) (s : ApplyState) (ms : List MethodId) : Prop where
  split : ∃ new, (s.classes.classAt id).methods = ms ++ new ∧ ∀ m ∈ new, ¬b.HasMethod m
  known : ∀ m ∈ ms, b.HasMethod m

/-- The class with an added method, and the names afterwards. -/
theorem addMethod_result {block : MethodBlock} {m : MethodId}
    (h : (addMethod id block).run s = .ok m t) :
    let namesake := namesake? s id block
    let name := (namesake.map fun m => (s.classes.methodAt m).name).getD block.ident.name
    ∃ type, s.scope.mapMethod s.classes block.type = .ok type ∧ m = s.classes.nextMethod ∧
      let added := s.classes.addMethod id ⟨name, type.text, block.access, [], some {}⟩ false
      t.classes = (added.modifyClass id fun c => { c with modified := true }) ∧
        t.scope = if block.ident.isBindable ∧ namesake.isNone then
          (s.scope.bindMethod? added id (.of block.ident block.desc) m).getD s.scope
            else s.scope := by
  obtain ⟨type, u, isMapped, rest⟩ := run_bind_ok h
  obtain ⟨means, rfl⟩ := mapped_ok isMapped
  obtain ⟨start, u, got, rest⟩ := run_bind_ok rest
  cases got
  dsimp only at rest
  obtain ⟨_, v, added, rest⟩ := run_bind_ok rest
  cases added
  refine ⟨type, means, ?_⟩
  split at rest
  · obtain ⟨_, w, bound, rest⟩ := run_bind_ok rest
    cases bound
    cases rest
    exact ⟨rfl, rfl, (if_pos ‹_›).symm⟩
  · cases rest
    exact ⟨rfl, rfl, (if_neg ‹_›).symm⟩

theorem addMethod_ok {block : MethodBlock} {m : MethodId}
    (h : (addMethod id block).run s = .ok m t) :
    m = s.classes.nextMethod ∧
      ∃ decl, t.classes = (s.classes.addMethod id decl false).modifyClass id fun c =>
      { c with modified := true } := by
  obtain ⟨_, -, isNext, classes, -⟩ := addMethod_result h
  exact ⟨isNext, _, classes⟩

/-- In a later state the known methods have their signatures. -/
theorem hasSignature_of_reached (reached : ClassSet.Evolves .declarations b s.classes)
    {m : MethodId} (known : b.HasMethod m) (name desc : String) :
    (s.classes.methodAt m).hasSignature name desc = (b.methodAt m).hasSignature name desc := by
  obtain ⟨sameName, sameDesc, -, -⟩ := reached.signature m known
  rw [MethodEntry.hasSignature, MethodEntry.hasSignature, sameName, sameDesc]

/-- The method that a block removes is the first that the class declares with the signature of the
assigned one, or none that the class declares. -/
theorem filter_declared (reached : ClassSet.Evolves .declarations b s.classes) {handle : MethodId}
    (known : b.HasMethod handle) (lists : Lists b id s ms) :
    ms.filter (· != (s.classes.bodyOf id handle).getD handle) = b.dropFirst ms handle := by
  obtain ⟨new, split, -⟩ := lists.split
  obtain ⟨sameName, sameDesc, -, -⟩ := reached.signature handle known
  have sought : ∀ m ∈ ms, (s.classes.methodAt m).hasSignature (s.classes.methodAt handle).name
        (s.classes.methodAt handle).desc =
      (b.methodAt m).hasSignature (b.methodAt handle).name (b.methodAt handle).desc := by
    intro m member
    rw [hasSignature_of_reached reached (lists.known m member), sameName, sameDesc]
  have same : ms.find? (fun m => (s.classes.methodAt m).hasSignature
        (s.classes.methodAt handle).name (s.classes.methodAt handle).desc) =
      ms.find? fun m => (b.methodAt m).hasSignature (b.methodAt handle).name
        (b.methodAt handle).desc := by
    rw [← List.head?_filter, ← List.head?_filter, List.filter_congr sought]
  unfold ClassSet.dropFirst
  rw [← same]
  cases first : ms.find? fun m => (s.classes.methodAt m).hasSignature
      (s.classes.methodAt handle).name (s.classes.methodAt handle).desc with
  | some m =>
    have declared : s.classes.declaredMethod? (s.classes.methodAt handle).name
        (s.classes.methodAt handle).desc id = some m := by
      rw [ClassSet.declaredMethod?, split, List.find?_append, first, Option.some_or]
    rw [ClassSet.bodyOf_of_declaredMethod? declared, Option.getD_some]
  | none =>
    refine List.filter_eq_self.2 fun m member => ?_
    have different : m ≠ (s.classes.bodyOf id handle).getD handle := by
      rintro rfl
      refine List.find?_eq_none.1 first _ member ?_
      rw [ClassSet.hasSignature_iff]
      cases body : s.classes.bodyOf id handle with
      | none => exact ⟨rfl, rfl⟩
      | some m => exact ClassSet.bodyOf_eq_some body
    simpa using different

theorem rewriteAccess_ok {α : Type} {m : MethodId} {block : MethodBlock}
    (h : (rewriteAccess m block).run s = .ok () t) (part : ClassEntry → α)
    (same : ∀ c, part { c with modified := true } = part c) (id : ClassId) :
    part (t.classes.classAt id) = part (s.classes.classAt id) := by
  obtain ⟨start, u, got, h⟩ := run_bind_ok h
  cases got
  dsimp only at h
  split at h
  · cases h
    exact part_touch part same _ _ id
  · cases h
    rfl

/-- What a method block does to the methods that a class declared. -/
theorem applyMethod_ok {owner : ClassBlock} {block : MethodBlock} {choice : Option MethodId}
    {result : Option MethodId × List PendingBody}
    (reached : ClassSet.Evolves .declarations b s.classes)
    (known : ∀ m, choice = some m → b.HasMethod m) (lists : Lists b id s ms)
    (h : (applyMethod owner id block choice).run s = .ok result t) :
    ((t.classes.classAt id).interfaces = (s.classes.classAt id).interfaces ∧
      (t.classes.classAt id).fields = (s.classes.classAt id).fields) ∧
      Lists b id t ((block.removed choice).foldl b.dropFirst ms) := by
  obtain ⟨new, split, isNew⟩ := lists.split
  unfold applyMethod at h
  cases mode : block.mode with
  | add =>
    simp only [mode] at h
    obtain ⟨m, u, added, done⟩ := run_bind_ok h
    obtain ⟨-, decl, classes⟩ := addMethod_ok added
    cases done
    rw [classes]
    refine ⟨⟨?_, ?_⟩, ?_, ?_⟩
    · refine (part_touch (·.interfaces) (fun _ => rfl) _ id id).trans ?_
      exact s.classes.part_addMethod (·.interfaces) (fun _ _ _ => rfl) id decl false id
    · refine (part_touch (·.fields) (fun _ => rfl) _ id id).trans ?_
      exact s.classes.part_addMethod (·.fields) (fun _ _ _ => rfl) id decl false id
    · obtain ⟨more, methods, isMore⟩ := s.classes.methods_addMethod id decl false
      have listed := (part_touch (·.methods) (fun _ => rfl) (s.classes.addMethod id decl false) id
        id).trans methods
      refine ⟨new ++ more, ?_, fun m member => ?_⟩
      · rw [classes, listed, split, List.append_assoc]
        simp [MethodBlock.removed, mode]
      · rcases List.mem_append.1 member with old | new
        · exact isNew m old
        · exact fun has => isMore m new (reached.hasMethod m has)
    · simpa [MethodBlock.removed, mode] using lists.known
  | remove =>
    simp only [mode] at h
    obtain ⟨handle, u, found, rest⟩ := run_bind_ok h
    obtain ⟨rfl, rfl⟩ := run_assigned_ok found
    cases rest
    have left := filter_declared reached (known handle rfl) lists
    have removed : (block.removed (some handle)).foldl b.dropFirst ms = b.dropFirst ms handle := by
      simp [MethodBlock.removed, mode]
    refine ⟨⟨?_, ?_⟩, ?_, ?_⟩
    · refine (part_touch (·.interfaces) (fun _ => rfl) _ _ id).trans ?_
      rw [ClassSet.classAt_removeMethod]
    · refine (part_touch (·.fields) (fun _ => rfl) _ _ id).trans ?_
      rw [ClassSet.classAt_removeMethod]
    · refine ⟨new.filter (· != (u.classes.bodyOf id handle).getD handle), ?_, fun m member => ?_⟩
      · refine (part_touch (·.methods) (fun _ => rfl) _ _ id).trans ?_
        rw [ClassSet.classAt_removeMethod, removed, ← left]
        exact (congrArg _ split).trans (List.filter_append ..)
      · exact isNew m (List.mem_filter.1 member).1
    · intro m member
      rw [removed, ← left] at member
      exact lists.known m (List.mem_filter.1 member).1
  | keep =>
    simp only [mode] at h
    obtain ⟨handle, u, found, rest⟩ := run_bind_ok h
    obtain ⟨rfl, rfl⟩ := run_assigned_ok found
    obtain ⟨_, v, rewritten, done⟩ := run_bind_ok rest
    cases done
    have part := fun {α : Type} => rewriteAccess_ok (α := α) rewritten
    refine ⟨⟨part (·.interfaces) (fun _ => rfl) id, part (·.fields) (fun _ => rfl) id⟩, ?_, ?_⟩
    · refine ⟨new, ?_, isNew⟩
      rw [part (·.methods) (fun _ => rfl) id, split]
      simp [MethodBlock.removed, mode]
    · simpa [MethodBlock.removed, mode] using lists.known

theorem applyMethods_ok {owner : ClassBlock} {es : List (MethodBlock × Option MethodId)}
    {results : List (Option MethodId × List PendingBody)}
    (reached : ClassSet.Evolves .declarations b s.classes)
    (known : ∀ e ∈ es, ∀ m, e.2 = some m → b.HasMethod m) (lists : Lists b id s ms)
    (h : (es.mapM fun e => applyMethod owner id e.1 e.2).run s = .ok results t) :
    ((t.classes.classAt id).interfaces = (s.classes.classAt id).interfaces ∧
      (t.classes.classAt id).fields = (s.classes.classAt id).fields) ∧
      Lists b id t ((es.flatMap fun e => e.1.removed e.2).foldl b.dropFirst ms) := by
  induction es generalizing s results ms with
  | nil =>
    cases h
    exact ⟨⟨rfl, rfl⟩, lists⟩
  | cons e es ih =>
    rw [List.mapM_cons] at h
    obtain ⟨y, u, one, h⟩ := run_bind_ok h
    obtain ⟨rest, v, more, done⟩ := run_bind_ok h
    cases done
    have changed := (Changes.applyMethod owner id e.1 e.2 s).ok one
    obtain ⟨⟨interfaces, fields⟩, listed⟩ :=
      applyMethod_ok reached (known e List.mem_cons_self) lists one
    obtain ⟨⟨interfaces', fields'⟩, listed'⟩ := ih (reached.trans changed.classes)
      (fun e member => known e (.tail _ member)) listed more
    refine ⟨⟨interfaces'.trans interfaces, fields'.trans fields⟩, ?_⟩
    rwa [List.flatMap_cons, List.foldl_append]

/-- Known methods that are not among the first ones have left. -/
theorem Lists.sdiff_eq (lists : Lists b id s ms) {declared : Finset MethodId}
    (known : ∀ m ∈ declared, b.HasMethod m) :
    declared \ (s.classes.classAt id).methods.toFinset = declared \ ms.toFinset := by
  obtain ⟨new, split, isNew⟩ := lists.split
  ext m
  rw [Finset.mem_sdiff, Finset.mem_sdiff, split, List.mem_toFinset, List.mem_toFinset,
    List.mem_append]
  refine and_congr_right fun member => not_congr (or_iff_left ?_)
  exact fun inside => isNew m inside (known m member)

/-- What a class block takes out of its class. -/
theorem applyClass_takesOut {block : ClassBlock} {choice : ClassChoice}
    {result : ClassChoice × List PendingBody} (wellFormed : s.classes.WellFormed)
    (chosen : choice.cls = some id) (stays : block.mode ≠ .remove)
    (ownFields : ∀ f, some f ∈ choice.fields →
      s.classes.HasField f ∧ (s.classes.fieldAt f).declaredBy = id)
    (knownMethods : ∀ m, some m ∈ choice.methods → s.classes.HasMethod m)
    (h : (applyClass block choice).run s = .ok result t) : TakesOut block choice id s t := by
  obtain ⟨id', u, found, body⟩ := run_bind_ok h
  obtain ⟨chosen', same⟩ := run_assigned_ok found
  obtain rfl := Option.some.inj (chosen.symm.trans chosen')
  subst same
  rw [if_neg stays] at body
  obtain ⟨_, u₁, superLines, body⟩ := run_bind_ok body
  obtain ⟨_, u₂, interfaceLines, body⟩ := run_bind_ok body
  obtain ⟨_, u₃, fieldLines, body⟩ := run_bind_ok body
  obtain ⟨_, u₄, methodBlocks, done⟩ := run_bind_ok body
  cases done
  have toHeader : ClassSet.Evolves .declarations u.classes u₂.classes :=
    ((Changes.forM fun l _ => .applySuper trivial _ l) u |>.ok superLines).classes.trans
      ((Changes.forM fun l _ => .applyInterface trivial _ l) u₁ |>.ok interfaceLines).classes
  have toFields : ClassSet.Evolves .declarations u.classes u₃.classes :=
    toHeader.trans ((Changes.mapM fun e _ => .applyField block id e.1 e.2) u₂ |>.ok
      fieldLines).classes
  obtain ⟨same₁, interfaces₁⟩ := applySupers_ok superLines
  obtain ⟨same₂, decides⟩ := applyInterfaces_ok interfaceLines
  have fromZip : ∀ e ∈ block.fields.zip choice.fields, ∀ f, e.2 = some f →
      u.classes.HasField f ∧ (u.classes.fieldAt f).declaredBy = id := by
    intro e member f isField
    exact ownFields f (isField ▸ (List.of_mem_zip member).2)
  obtain ⟨⟨interfaces₃, methods₃⟩, fields₃⟩ := applyFields_ok toHeader fromZip fieldLines
  have listed : Lists u.classes id u₃ (u.classes.classAt id).methods := by
    refine ⟨⟨[], ?_, fun _ member => nomatch member⟩, fun m member => ?_⟩
    · rw [methods₃, same₂.methods, same₁.methods, List.append_nil]
    · exact (wellFormed.methods id m member).1
  obtain ⟨⟨interfaces₄, fields₄⟩, left⟩ := applyMethods_ok toFields
    (fun e member m isMethod => knownMethods m (isMethod ▸ (List.of_mem_zip member).2)) listed
    methodBlocks
  constructor
  · intro name member
    have known : u.classes.HasClass id := by
      by_contra unknown
      rw [ClassSet.classAt, Array.getElem?_eq_none (Nat.not_lt.1 unknown)] at member
      cases member
    rw [interfaces₄, interfaces₃, decides (same₁.hasClass known) name, same₁.lastAbout_eq,
      interfaces₁]
    cases about : lastAbout u name block.interfaces with
    | none => simp [member]
    | some l =>
      have speaks : l.mode ≠ .keep := by
        have inside := List.mem_of_getLast? about
        simpa using (Bool.and_eq_true_iff.1 (List.mem_filter.1 inside).2).1
      cases mode : l.mode <;> simp_all
  · intro f member
    rw [fields₄, fields₃ f (wellFormed.fields id f member).1, same₂.fields, same₁.fields]
    simp [member, ClassBlock.removedFields]
  · intro name desc
    dsimp only
    rw [left.sdiff_eq fun m member =>
      (wellFormed.methods id m (u.classes.mem_withSignature.1 member).1).1]
    exact u.classes.card_foldl_dropFirst name desc _ _

end ApplyM

/-- A class block that stays takes out of its class what its lines remove. -/
def BlockStep (e : ClassBlock × ClassChoice) (s t : ApplyState) : Prop :=
  (∃ result, (applyClass e.1 e.2).run s = .ok result t) ∧
    (e.1.mode ≠ .remove → ∃ id, e.2.cls = some id ∧ TakesOut e.1 e.2 id s t)

/-- A method block deletes from the body behind its method what was found for its lines. -/
def BodyStep (p : PendingBody) (s t : ApplyState) : Prop :=
  (applyBody p).run s = .ok () t ∧ ∀ target, p.target? = some target →
    target.block.insns = [] ∧ t = s ∨
      ∃ body code later, target.body? s.classes = some body ∧
        (s.classes.methodAt body).code = some code ∧
        (t.classes.methodAt body).code = some later ∧
        Deletes target.block ((s.scope.methodMatch? body).getD {}) code later

namespace ApplyM

variable {s t : ApplyState}

theorem applyBody_step {p : PendingBody} (h : (applyBody p).run s = .ok () t) : BodyStep p s t := by
  refine ⟨h, fun target isTarget => ?_⟩
  cases p with
  | added id block => cases isTarget
  | matched cls handle block =>
    cases isTarget
    rw [applyBody] at h
    split at h
    · rename_i empty
      cases h
      exact .inl ⟨by simpa using empty, rfl⟩
    · exact .inr (changeBody_deletes h)

/-- A class block whose class and members are those that were assigned takes out what it says, in
every state that the blocks before it lead to. -/
theorem applyClass_step {set : ClassSet} {a : Assignment} {e : ClassBlock × ClassChoice}
    {result : ClassChoice × List PendingBody} (wellFormed : set.WellFormed)
    (reached : ClassSet.Evolves .declarations set s.classes) (fitting : Fitting set a e)
    (h : (applyClass e.1 e.2).run s = .ok result t) : BlockStep e s t := by
  refine ⟨⟨result, h⟩, fun stays => ?_⟩
  obtain ⟨id, u, found, body⟩ := run_bind_ok h
  obtain ⟨chosen, -⟩ := run_assigned_ok found
  refine ⟨id, chosen, ?_⟩
  refine applyClass_takesOut (reached.wellFormed wellFormed) chosen stays (fun f member => ?_)
    (fun m member => reached.hasMethod m (fitting.methods m member)) h
  obtain ⟨known, owner⟩ := fitting.fields id chosen f member
  exact ⟨reached.hasField f known, (reached.field f known).2.trans owner⟩

end ApplyM

namespace ClassSet

/-- Applying a script goes through its class blocks and then through the bodies of the matched
method blocks, and every line that removes something takes out what is assigned to it or was found
for it. -/
theorem apply_removes {set : ClassSet} {script : Script} {o : ResolveOptions} {r : Resolution}
    {result : Applied} (wellFormed : set.WellFormed)
    (accepted : set.resolve script {} (set.verify script) o = .ok r)
    (applied : set.apply script r = .ok result) :
    ∃ blocks pending started declared final,
      (addClasses (script.classes.zip r.assignment)).run ⟨set, r.scope, {}⟩ = .ok blocks started ∧
      blocks.map Prod.fst = script.classes ∧
      Chained BlockStep blocks started declared ∧
      pending.filterMap PendingBody.target? =
        (script.targets r.assignment).filter MethodTarget.edited ∧
      Chained BodyStep pending declared final ∧ result.classes = final.classes := by
  have full := (firstAccepted_of_resolve accepted).full
  obtain ⟨applied, declared, final, ran, bodies, same⟩ := apply_ok applied
  obtain ⟨targets, -⟩ := declare_pending full ran
  obtain ⟨blocks, started, added, steps⟩ := run_bind_ok ran
  have prepared := addClasses_ok added
  have grown : Evolves .declarations set started.classes :=
    ((Changes.addClasses .declarations _ _).ok added).classes
  refine ⟨blocks, _, started, declared, final, added, ?_, ?_, targets, ?_, same⟩
  · have firsts : (script.classes.zip r.assignment).map Prod.fst = blocks.map Prod.fst := by
      clear added steps ran
      generalize script.classes.zip r.assignment = es at prepared ⊢
      induction prepared with
      | nil => rfl
      | cons one _ ih => rw [List.map_cons, List.map_cons, one.block, ih]
    rw [← firsts, List.map_fst_zip (Nat.le_of_eq full.length_eq)]
  · refine .of_mapM (fun e _ => .applyClass e.1 e.2) (fun e member u v y reached step => ?_) steps
    obtain ⟨b, inside, isPrepared⟩ := exists_mem_of_mem_right prepared member
    have fitting := fitting_of_prepared wellFormed ((List.forall₂_iff_zip.1 full).2 inside)
      (List.of_mem_zip inside).2 isPrepared
    exact applyClass_step wellFormed (grown.trans reached.classes) fitting step
  · exact .of_forM (fun p _ u v step => applyBody_step step) bodies

/-- The class `a/A` with two fields and a method `m`, which does nothing. -/
def twoFields : ClassSet :=
  let header : ClassHeader := ⟨"a/A", some objectClass, [], 33, 50, 0, none⟩
  let code : Code := { insns := [.simple 0, .simple Opcode.voidReturn] }
  (insert? {} ⟨header, [⟨"x", "I", 1, none⟩, ⟨"y", "I", 1, none⟩],
    [⟨"m", "()V", 1, [], some code⟩]⟩ none false).getD {}

theorem reachable_twoFields : Reachable twoFields := by
  have taken : (insert? {} ⟨⟨"a/A", some objectClass, [], 33, 50, 0, none⟩,
      [⟨"x", "I", 1, none⟩, ⟨"y", "I", 1, none⟩],
      [⟨"m", "()V", 1, [], some { insns := [.simple 0, .simple Opcode.voidReturn] }⟩]⟩ none
      false) = some twoFields := by decide +kernel
  exact .insert (.empty []) taken

/-- A class block for `a/A` that removes fields of some names, and lines of its method. -/
def removalsFrom (fields : List String) (lines : List InsnLine) : Script :=
  ⟨[⟨.keep, .ordinary, ⟨"a/A", false⟩, 1, [], [],
    fields.map fun name => ⟨.remove, ⟨name, false⟩, "I", ⟨0, .int⟩, false, false, none, 2⟩,
    [⟨.keep, ⟨"m", false⟩, "()V", ⟨[], .void⟩, false, false, false, lines, 3⟩]⟩]⟩

/-- A block that removes a field and an instruction. -/
def removesBoth : Script :=
  removalsFrom ["x"]
    [⟨.remove, .single 0, .single 0, 4, "-nop"⟩, ⟨.keep, .ret, .ret, 5, ".return"⟩]

def removesBothFound : Resolution :=
  ⟨{ bodies := .insert .empty ⟨0⟩ ⟨.insert (.insert .empty 0 0) 1 1, .empty⟩ },
    [⟨some ⟨0⟩, [some ⟨0⟩], [some ⟨0⟩]⟩]⟩

theorem apply_removes_both :
    ∃ result, twoFields.resolve removesBoth {} (twoFields.verify removesBoth) {} =
        .ok removesBothFound ∧ twoFields.apply removesBoth removesBothFound = .ok result ∧
      ∃ blocks pending started declared final,
        (addClasses (removesBoth.classes.zip removesBothFound.assignment)).run
          ⟨twoFields, removesBothFound.scope, {}⟩ = .ok blocks started ∧
        blocks.map Prod.fst = removesBoth.classes ∧
        Chained BlockStep blocks started declared ∧
        pending.filterMap PendingBody.target? =
          (removesBoth.targets removesBothFound.assignment).filter MethodTarget.edited ∧
        Chained BodyStep pending declared final ∧ result.classes = final.classes := by
  have accepted : twoFields.resolve removesBoth {} (twoFields.verify removesBoth) {} =
    .ok removesBothFound := by decide +kernel
  have goesThrough : (twoFields.apply removesBoth removesBothFound).toOption.isSome = true := by
    decide +kernel
  cases applied : twoFields.apply removesBoth removesBothFound with
  | error e => simp [applied, Except.toOption] at goesThrough
  | ok result =>
    exact ⟨result, accepted, rfl, apply_removes reachable_twoFields.wellFormed accepted applied⟩

/-- Two lines that remove a field of any name. -/
def removesAnyTwice : Script :=
  removalsFrom ["*", "*"] [⟨.keep, .any, .any, 4, ".any"⟩]

/-- Two lines that remove a field of any name remove the first one only. -/
theorem apply_removes_one_of_two :
    ∃ r, twoFields.resolve removesAnyTwice {} (twoFields.verify removesAnyTwice) {} = .ok r ∧
      (twoFields.apply removesAnyTwice r).toOption.map
          (fun result => (result.classes.classAt ⟨0⟩).fields) = some [⟨1⟩] ∧
      (twoFields.classAt ⟨0⟩).fields = [⟨0⟩, ⟨1⟩] ∧
      (removesAnyTwice.classes.flatMap ClassBlock.fields).countP (·.mode == .remove) = 2 :=
  ⟨⟨{ bodies := .insert .empty ⟨0⟩ ⟨.empty, .empty⟩ },
    [⟨some ⟨0⟩, [some ⟨0⟩, some ⟨0⟩], [some ⟨0⟩]⟩]⟩,
    by decide +kernel, by decide +kernel, by decide +kernel, by decide +kernel⟩

end ClassSet

end JvmPatch
