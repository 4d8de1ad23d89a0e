import JvmPatch.Proofs.Apply.Removal
import JvmPatch.Proofs.Apply.Transitions
import JvmPatch.Proofs.ClassSet.Views

/-! Members with one name and descriptor. A script takes members out of classes and puts new ones at
the end of their lists, and a new one comes from an `Add` line. Nothing compares its name with those
that the class has, so members that differ stay different only as long as the added ones differ from
the rest. -/

set_option autoImplicit false

namespace JvmPatch

namespace ClassSet

/-- No class declares two fields or two methods with one name and descriptor. -/
structure Distinct (set : ClassSet) : Prop where
  fields : ∀ cls, ((set.classAt cls).fields.map set.fieldSignature).Nodup
  methods : ∀ cls, ((set.classAt cls).methods.map set.signature).Nodup

/-- No class declares one member twice. -/
structure ListsOnce (set : ClassSet) : Prop where
  fields : ∀ cls, (set.classAt cls).fields.Nodup
  methods : ∀ cls, (set.classAt cls).methods.Nodup

/-- Classes have lost members, in no other order. -/
structure Shrinks (set later : ClassSet) : Prop where
  fields : ∀ cls, (later.classAt cls).fields.Sublist (set.classAt cls).fields
  methods : ∀ cls, (later.classAt cls).methods.Sublist (set.classAt cls).methods

/-- Every member that a class declares is an old one of it or has come in with a line. -/
structure Arrived (base : ClassSet) (fields : ClassId → FieldId → Prop)
    (methods : ClassId → MethodId → Prop) (set : ClassSet) : Prop where
  fields : ∀ cls, ∀ f ∈ (set.classAt cls).fields, f ∈ (base.classAt cls).fields ∨ fields cls f
  methods : ∀ cls, ∀ m ∈ (set.classAt cls).methods, m ∈ (base.classAt cls).methods ∨ methods cls m

namespace Shrinks

variable {set later latest : ClassSet}

theorem of_lists (same : ∀ cls, (later.classAt cls).fields = (set.classAt cls).fields ∧
    (later.classAt cls).methods = (set.classAt cls).methods) : Shrinks set later :=
  ⟨fun cls => (same cls).1 ▸ .refl _, fun cls => (same cls).2 ▸ .refl _⟩

theorem trans (first : Shrinks set later) (second : Shrinks later latest) : Shrinks set latest :=
  ⟨fun cls => (second.fields cls).trans (first.fields cls),
    fun cls => (second.methods cls).trans (first.methods cls)⟩

theorem addClass {c : ClassEntry} (fields : c.fields = []) (methods : c.methods = []) :
    Shrinks set (set.addClass c) := by
  refine of_lists fun cls => ?_
  rcases set.classAt_addClass_cases c cls with old | ⟨unknown, new⟩
  · rw [old]
    exact ⟨rfl, rfl⟩
  · rw [new, classAt_of_unknown unknown]
    exact ⟨fields, methods⟩

theorem modifyClass (set : ClassSet) (id : ClassId) {f : ClassEntry → ClassEntry}
    (same : ∀ c, (f c).fields = c.fields ∧ (f c).methods = c.methods) :
    Shrinks set (set.modifyClass id f) :=
  of_lists fun cls => ⟨set.classAt_modifyClass_same (·.fields) (fun c => (same c).1) id cls,
    set.classAt_modifyClass_same (·.methods) (fun c => (same c).2) id cls⟩

theorem mark (set : ClassSet) (id : ClassId) : Shrinks set (set.mark id) :=
  modifyClass set id fun _ => ⟨rfl, rfl⟩

theorem modifyMethod (set : ClassSet) (id : MethodId) (f : MethodEntry → MethodEntry) :
    Shrinks set (set.modifyMethod id f) := of_lists fun _ => ⟨rfl, rfl⟩

theorem removeField (set : ClassSet) (f : FieldId) : Shrinks set (set.removeField f) := by
  constructor
  · intro cls
    rcases Evolves.classAt_modifyClass_cases (set.modifyField f fun e => { e with hidden := true })
      ((set.modifyField f fun e => { e with hidden := true }).fieldAt f).declaredBy
      (fun c => { c with fields := c.fields.filter (· != f) }) cls with same | ⟨-, changed⟩
    · exact same ▸ .refl _
    · exact changed ▸ List.filter_sublist
  · exact fun cls => set.part_removeField (·.methods) (fun _ _ => rfl) f cls ▸ .refl _

theorem removeMethod (set : ClassSet) (m : MethodId) : Shrinks set (set.removeMethod m) := by
  constructor
  · intro cls
    rw [classAt_removeMethod]
  · intro cls
    rw [classAt_removeMethod]
    exact List.filter_sublist

end Shrinks

theorem Arrived.shrinks {base set later : ClassSet} {fields : ClassId → FieldId → Prop}
    {methods : ClassId → MethodId → Prop} (arrived : Arrived base fields methods set)
    (shrinks : Shrinks set later) :
    Arrived base fields methods later :=
  ⟨fun cls f member => arrived.fields cls f ((shrinks.fields cls).subset member),
    fun cls m member => arrived.methods cls m ((shrinks.methods cls).subset member)⟩

end ClassSet

def Script.AddsField (script : Script) (a : Assignment) (cls : ClassId) (f : FieldId) : Prop :=
  ∃ e ∈ script.classes.zip a, e.2.cls = some cls ∧ ∃ l ∈ e.1.fields.zip e.2.fields,
    l.1.mode = .add ∧ l.2 = some f

def Script.AddsMethod (script : Script) (a : Assignment) (cls : ClassId) (m : MethodId) : Prop :=
  ∃ e ∈ script.classes.zip a, e.2.cls = some cls ∧ ∃ b ∈ e.1.methods.zip e.2.methods,
    b.1.mode = .add ∧ b.2 = some m

namespace ApplyM

open ClassSet

variable {base : ClassSet} {fields : ClassId → FieldId → Prop} {methods : ClassId → MethodId → Prop}
  {s t : ApplyState} {id : ClassId}

/-- What keeps a property that only depends on the classes, and does not mind that members leave. -/
abbrev Arrives (base : ClassSet) (fields : ClassId → FieldId → Prop)
    (methods : ClassId → MethodId → Prop) (s : ApplyState) : Prop :=
  Arrived base fields methods s.classes

theorem arrives_modifyClasses {f : ClassSet → ClassSet} (shrinks : ∀ set, Shrinks set (f set)) :
    Preserves (Arrives base fields methods) (modifyClasses f) :=
  .modify fun s arrived => arrived.shrinks (shrinks s.classes)

theorem arrives_addClass (block : ClassBlock) :
    Preserves (Arrives base fields methods) (addClass block) := by
  refine .ofGet fun s arrived => ?_
  dsimp only
  split
  · exact arrived
  have added := arrived.shrinks
    (.addClass (c := .fresh block.ident.name (some objectClass) block.kind.access) rfl rfl)
  split
  · cases s.scope.bindClass? block.ident.text s.classes.nextClass with
    | none => exact added
    | some scope => exact added
  · exact added

theorem arrives_addClasses (blocks : List (ClassBlock × ClassChoice)) :
    Preserves (Arrives base fields methods) (addClasses blocks) := by
  induction blocks with
  | nil => exact .pure _ _
  | cons e rest ih =>
    obtain ⟨block, choice⟩ := e
    have onward (choice : ClassChoice) : Preserves (Arrives base fields methods) (do
        let rest ← addClasses rest
        pure ((block, choice) :: rest)) := ih.bind fun _ => .pure _ _
    unfold addClasses
    dsimp only
    split
    · exact (arrives_addClass block).bind fun _ => (Preserves.pure _ _).bind onward
    · exact (Preserves.pure _ _).bind onward

theorem arrives_applySuper (line : Nat) (id : ClassId) (l : SupertypeLine) :
    Preserves (Arrives base fields methods) (applySuper line id l) := by
  have become (name : String) : Preserves (Arrives base fields methods) (modifyClasses fun set =>
      set.modifyClass id fun c => { c with superName := some name, modified := true }) :=
    arrives_modifyClasses fun set => .modifyClass set id fun _ => ⟨rfl, rfl⟩
  unfold applySuper
  dsimp only
  split
  · exact .pure _ _
  · exact (preserves_mapped _ _ _).bind become
  · split
    · exact become _
    · refine (preserves_mapped _ _ _).bind fun name => .ofGet fun s arrived => ?_
      split
      · exact preserves_iff.1 (become objectClass) s arrived
      · exact arrived

theorem arrives_applyInterface (line : Nat) (id : ClassId) (l : SupertypeLine) :
    Preserves (Arrives base fields methods) (applyInterface line id l) := by
  have become (f : List String → List String) :
      Preserves (Arrives base fields methods) (modifyClasses fun set =>
      set.modifyClass id fun c => { c with interfaces := f c.interfaces, modified := true }) :=
    arrives_modifyClasses fun set => .modifyClass set id fun _ => ⟨rfl, rfl⟩
  unfold applyInterface
  dsimp only
  split
  · exact .pure _ _
  · exact (preserves_mapped _ _ _).bind fun name =>
      become fun names => if names.contains name then names else names ++ [name]
  · exact (preserves_mapped _ _ _).bind fun name => become fun names => names.filter (· != name)

theorem arrives_rewriteAccess (m : MethodId) (block : MethodBlock) :
    Preserves (Arrives base fields methods) (rewriteAccess m block) := by
  refine .ofGet fun s arrived => ?_
  dsimp only
  split
  · exact arrived.shrinks ((Shrinks.modifyMethod _ _ _).trans (.mark _ _))
  · exact arrived

theorem applyField_arrives {block : ClassBlock} {l : FieldLine} {choice result : Option FieldId}
    (adds : l.mode = .add → ∀ f, result = some f → fields id f)
    (arrived : Arrives base fields methods s)
    (h : (applyField block id l choice).run s = .ok result t) : Arrives base fields methods t := by
  unfold applyField at h
  cases mode : l.mode with
  | keep =>
    simp only [mode] at h
    cases h
    exact arrived
  | remove =>
    simp only [mode] at h
    refine Preserves.ok ?_ arrived h
    refine (preserves_assigned _ _ _).bind fun f => ?_
    refine (arrives_modifyClasses fun set => .removeField set f).bind fun _ => ?_
    exact (arrives_modifyClasses fun set => .mark set id).bind fun _ => .pure _ _
  | add =>
    simp only [mode] at h
    obtain ⟨f, u, added, done⟩ := run_bind_ok h
    obtain ⟨rfl, decl, classes⟩ := addField_ok added
    cases done
    have listed : Arrived base fields methods (s.classes.addField id decl false) := by
      constructor
      · intro cls f member
        rcases s.classes.classAt_addField_cases id decl false cls with same | ⟨rfl, more⟩
        · rw [same] at member
          exact arrived.fields cls f member
        · rw [more] at member
          rcases List.mem_append.1 member with old | isNew
          · exact arrived.fields cls f old
          · obtain rfl := List.mem_singleton.1 isNew
            exact .inr (adds mode _ rfl)
      · intro cls m member
        rw [s.classes.part_addField (·.methods) fun _ _ => rfl] at member
        exact arrived.methods cls m member
    rw [Arrives, classes]
    exact listed.shrinks (.mark _ id)

theorem applyMethod_arrives {owner : ClassBlock} {block : MethodBlock} {choice : Option MethodId}
    {result : Option MethodId × List PendingBody}
    (adds : block.mode = .add → ∀ m, result.1 = some m → methods id m)
    (arrived : Arrives base fields methods s)
    (h : (applyMethod owner id block choice).run s = .ok result t) :
    Arrives base fields methods t := by
  unfold applyMethod at h
  cases mode : block.mode with
  | keep =>
    simp only [mode] at h
    refine Preserves.ok ?_ arrived h
    exact (preserves_assigned _ _ _).bind fun m =>
      (arrives_rewriteAccess m block).bind fun _ => .pure _ _
  | remove =>
    simp only [mode] at h
    refine Preserves.ok ?_ arrived h
    refine (preserves_assigned _ _ _).bind fun handle => .ofGet fun s arrived => ?_
    exact arrived.shrinks ((Shrinks.removeMethod _ _).trans (.mark _ _))
  | add =>
    simp only [mode] at h
    obtain ⟨m, u, added, done⟩ := run_bind_ok h
    obtain ⟨rfl, decl, classes⟩ := addMethod_ok added
    cases done
    have listed : Arrived base fields methods (s.classes.addMethod id decl false) := by
      constructor
      · intro cls f member
        rw [s.classes.part_addMethod (·.fields) fun _ _ _ => rfl] at member
        exact arrived.fields cls f member
      · intro cls m member
        rcases s.classes.classAt_addMethod_cases id decl false cls with same | ⟨rfl, more⟩
        · rw [same] at member
          exact arrived.methods cls m member
        · rw [more] at member
          rcases List.mem_append.1 member with old | isNew
          · exact arrived.methods cls m old
          · obtain rfl := List.mem_singleton.1 isNew
            exact .inr (adds mode _ rfl)
    rw [Arrives, classes]
    exact listed.shrinks (.mark _ id)

theorem arrives_removeClass (id : ClassId) :
    Preserves (Arrives base fields methods) (removeClass id) :=
  .modify fun _ arrived => arrived.shrinks (.modifyClass _ id fun _ => ⟨rfl, rfl⟩)

theorem mem_zip_of_mem_zip_zip {α β γ : Type} {xs : List α} {ys : List β} {zs : List γ} {x : α}
    {y : β} {z : γ} (member : ((x, y), z) ∈ (xs.zip ys).zip zs) : (x, z) ∈ xs.zip zs := by
  induction xs generalizing ys zs with
  | nil => cases member
  | cons x' xs ih =>
    cases ys with
    | nil => cases member
    | cons y' ys =>
      cases zs with
      | nil => cases member
      | cons z' zs =>
        rcases List.mem_cons.1 member with same | member
        · cases same
          exact List.mem_cons_self
        · exact .tail _ (ih member)

theorem keeps_mapM {α β : Type} {P : ApplyState → Prop} {f : α → ApplyM β}
    {xs : List α} {ys : List β}
    (each : ∀ e ∈ xs.zip ys, ∀ u v, (f e.1).run u = .ok e.2 v → P u → P v)
    (h : (xs.mapM f).run s = .ok ys t) (holds : P s) : P t := by
  induction xs generalizing s ys with
  | nil =>
    cases h
    exact holds
  | cons x xs ih =>
    rw [List.mapM_cons] at h
    obtain ⟨y, u, one, h⟩ := run_bind_ok h
    obtain ⟨rest, v, more, done⟩ := run_bind_ok h
    cases done
    exact ih (fun e member => each e (.tail _ member)) more
      (each (x, y) List.mem_cons_self s u one holds)

/-- The lines of a block that stays, with what is assigned to them in the end, account for what it
adds. -/
theorem applyClass_arrives {block : ClassBlock} {choice : ClassChoice}
    {result : ClassChoice × List PendingBody}
    (addsFields : ∀ cls, result.1.cls = some cls → ∀ l ∈ block.fields.zip result.1.fields,
      l.1.mode = .add → ∀ f, l.2 = some f → fields cls f)
    (addsMethods : ∀ cls, result.1.cls = some cls → ∀ b ∈ block.methods.zip result.1.methods,
      b.1.mode = .add → ∀ m, b.2 = some m → methods cls m)
    (arrived : Arrives base fields methods s) (h : (applyClass block choice).run s = .ok result t) :
    Arrives base fields methods t := by
  obtain ⟨id, u, found, body⟩ := run_bind_ok h
  obtain ⟨chosen, rfl⟩ := run_assigned_ok found
  split at body
  · obtain ⟨_, v, removed, done⟩ := run_bind_ok body
    cases done
    exact (arrives_removeClass id).ok arrived removed
  · obtain ⟨_, u₁, superLines, body⟩ := run_bind_ok body
    obtain ⟨_, u₂, interfaceLines, body⟩ := run_bind_ok body
    obtain ⟨fs, u₃, fieldLines, body⟩ := run_bind_ok body
    obtain ⟨ms, u₄, methodBlocks, done⟩ := run_bind_ok body
    cases done
    have supers := (Preserves.forM fun l _ => arrives_applySuper block.line id l).ok
      arrived superLines
    have interfaces :=
      (Preserves.forM fun l _ => arrives_applyInterface block.line id l).ok supers interfaceLines
    have withFields : Arrives base fields methods u₃ := by
      refine keeps_mapM (fun e member v w one arrived => ?_) fieldLines interfaces
      refine applyField_arrives (fun mode => ?_) arrived one
      exact addsFields id chosen (e.1.1, e.2) (mem_zip_of_mem_zip_zip member) mode
    refine keeps_mapM (fun e member v w one arrived => ?_) methodBlocks withFields
    refine applyMethod_arrives (fun mode => ?_) arrived one
    have inside : (e.1.1, e.2.1) ∈ block.methods.zip (ms.map Prod.fst) := by
      rw [List.zip_map_right]
      exact List.mem_map.2 ⟨(e.1.1, e.2), mem_zip_of_mem_zip_zip member, rfl⟩
    exact addsMethods id chosen (e.1.1, e.2.1) inside mode

theorem map_fst_of_prepared {set : ClassSet} {es blocks : List (ClassBlock × ClassChoice)}
    (prepared : List.Forall₂ (Prepared set) es blocks) : blocks.map Prod.fst = es.map Prod.fst := by
  induction prepared with
  | nil => rfl
  | cons one _ ih => rw [List.map_cons, List.map_cons, one.block, ih]

/-- What applying a script has added to classes is what is assigned to its `Add` lines in the
end. -/
theorem declare_arrives {script : Script} {a : Assignment}
    {applied : List (ClassChoice × List PendingBody)} (full : script.classes.length = a.length)
    (start : s.classes = base) (h : (declare script a).run s = .ok applied t) :
    Arrives base (script.AddsField (applied.map Prod.fst))
      (script.AddsMethod (applied.map Prod.fst)) t := by
  subst start
  obtain ⟨blocks, u, added, carried⟩ := run_bind_ok h
  have prepared := addClasses_ok added
  have firsts : blocks.map Prod.fst = script.classes := by
    refine (map_fst_of_prepared prepared).trans ?_
    exact List.map_fst_zip (Nat.le_of_eq full)
  have arrived : Arrives s.classes (script.AddsField (applied.map Prod.fst))
      (script.AddsMethod (applied.map Prod.fst)) u :=
    (arrives_addClasses _).ok ⟨fun _ _ => .inl, fun _ _ => .inl⟩ added
  refine keeps_mapM (fun e member v w one arrived => ?_) carried arrived
  have inside : (e.1.1, e.2.1) ∈ script.classes.zip (applied.map Prod.fst) := by
    rw [← firsts, List.zip_map]
    exact List.mem_map.2 ⟨e, member, rfl⟩
  refine applyClass_arrives (fun cls chosen l line mode f isField => ?_)
    (fun cls chosen b line mode m isMethod => ?_)
    arrived one
  · exact ⟨_, inside, chosen, l, line, mode, isField⟩
  · exact ⟨_, inside, chosen, b, line, mode, isMethod⟩

end ApplyM

namespace ClassSet

variable {set later : ClassSet} {lines : List FieldLine} {drops : MethodId → Prop}

/-- A declaration takes members out of classes, or puts one that has not been known at the end. -/
theorem Declaration.lists (step : Declaration lines drops set later) (cls : ClassId) :
    (later.classAt cls).fields.Sublist ((set.classAt cls).fields ++ [set.nextField]) ∧
      (later.classAt cls).methods.Sublist ((set.classAt cls).methods ++ [set.nextMethod]) := by
  have ofShrinks {between : ClassSet} (shrinks : Shrinks set between) (cls : ClassId) :
      (between.classAt cls).fields.Sublist ((set.classAt cls).fields ++ [set.nextField]) ∧
        (between.classAt cls).methods.Sublist ((set.classAt cls).methods ++ [set.nextMethod]) :=
    ⟨(shrinks.fields cls).trans (List.sublist_append_left _ _),
      (shrinks.methods cls).trans (List.sublist_append_left _ _)⟩
  cases step with
  | addClass name kind => exact ofShrinks (.addClass rfl rfl) cls
  | header id f _ same =>
    exact ofShrinks (.modifyClass set id fun c => ⟨(same c).2.1, (same c).1⟩) cls
  | removeField f => exact ofShrinks ((Shrinks.removeField set f).trans (.mark _ _)) cls
  | removeMethod m => exact ofShrinks ((Shrinks.removeMethod set m).trans (.mark _ _)) cls
  | rewriteAccess m block => exact ofShrinks ((Shrinks.modifyMethod set m _).trans (.mark _ _)) cls
  | @addField id l name desc _ =>
    have marked := Shrinks.mark (set.addField id ⟨name, desc, l.access, l.value⟩ false) id
    constructor
    · refine (marked.fields cls).trans ?_
      rcases set.classAt_addField_cases id ⟨name, desc, l.access, l.value⟩ false cls with
        same | ⟨-, more⟩
      · exact same ▸ List.sublist_append_left _ _
      · exact more ▸ .refl _
    · refine (marked.methods cls).trans ?_
      rw [set.part_addField (·.methods) fun _ _ => rfl]
      exact List.sublist_append_left _ _
  | addMethod id block name desc =>
    have marked := Shrinks.mark (set.addMethod id ⟨name, desc, block.access, [], some {}⟩ false) id
    constructor
    · refine (marked.fields cls).trans ?_
      rw [set.part_addMethod (·.fields) fun _ _ _ => rfl]
      exact List.sublist_append_left _ _
    · refine (marked.methods cls).trans ?_
      rcases set.classAt_addMethod_cases id ⟨name, desc, block.access, [], some {}⟩ false cls with
        same | ⟨-, more⟩
      · exact same ▸ List.sublist_append_left _ _
      · exact more ▸ .refl _

theorem Declaration.listsOnce (step : Declaration lines drops set later) (formed : set.WellFormed)
    (once : set.ListsOnce) : later.ListsOnce := by
  constructor
  · intro cls
    refine (step.lists cls).1.nodup ?_
    rw [List.nodup_append]
    refine ⟨once.fields cls, List.nodup_singleton _, fun f member g new same => ?_⟩
    obtain rfl := List.mem_singleton.1 new
    exact Nat.lt_irrefl _ (same ▸ (formed.fields cls f member).1)
  · intro cls
    refine (step.lists cls).2.nodup ?_
    rw [List.nodup_append]
    refine ⟨once.methods cls, List.nodup_singleton _, fun m member n new same => ?_⟩
    obtain rfl := List.mem_singleton.1 new
    exact Nat.lt_irrefl _ (same ▸ (formed.methods cls m member).1)

theorem Declaration.Steps.listsOnce (steps : Declaration.Steps lines drops set later)
    (formed : set.WellFormed) (once : set.ListsOnce) : later.ListsOnce := by
  induction steps with
  | refl => exact once
  | tail before step ih =>
    exact step.listsOnce (Declaration.Steps.evolves before |>.wellFormed formed) ih

theorem Distinct.listsOnce (distinct : set.Distinct) : set.ListsOnce :=
  ⟨fun cls => (distinct.fields cls).of_map, fun cls => (distinct.methods cls).of_map⟩

/-- If the members of each class differ in name or descriptor, they still do after a script has been
applied whose added members differ from all others of their classes in the end. -/
theorem apply_distinct {script : Script} {o : ResolveOptions} {r : Resolution} {result : Applied}
    (formed : set.WellFormed) (distinct : set.Distinct)
    (accepted : set.resolve script {} (set.verify script) o = .ok r)
    (applied : set.apply script r = .ok result)
    (fieldsApart : ∀ cls f, script.AddsField result.assignment cls f →
      ∀ g ∈ (result.classes.classAt cls).fields,
        result.classes.fieldSignature g = result.classes.fieldSignature f → g = f)
    (methodsApart : ∀ cls m, script.AddsMethod result.assignment cls m →
      ∀ n ∈ (result.classes.classAt cls).methods,
        result.classes.signature n = result.classes.signature m → n = m) :
          result.classes.Distinct := by
  have full := (firstAccepted_of_resolve accepted).full
  obtain ⟨choices, declared, final, ran, bodies, rfl⟩ := apply_runs applied
  have declaring : Declaring script.fieldLines AnyMethod set r.scope.labels set.HasClass
      declared := by
    have declaring := Declaring.declare (s := ⟨set, r.scope, {}⟩) formed full rfl rfl
    rwa [leftBy_ok ran] at declaring
  have arrived := ApplyM.declare_arrives full.length_eq rfl ran
  have once := declaring.steps.listsOnce formed distinct.listsOnce
  have evolves := declaring.steps.evolves
  -- The body phase leaves lists, names and descriptors as they are.
  have shape := (ApplyM.applyBodies_rebuilt bodies).shape
  have fieldLists (cls : ClassId) :
      (final.classes.classAt cls).fields = (declared.classes.classAt cls).fields :=
    same_of_shape (f := fun set => (set.classAt cls).fields)
      (fun set => set.classAt_shape (·.fields) (fun _ => rfl) cls) shape
  have methodLists (cls : ClassId) :
      (final.classes.classAt cls).methods = (declared.classes.classAt cls).methods :=
    same_of_shape (f := fun set => (set.classAt cls).methods)
      (fun set => set.classAt_shape (·.methods) (fun _ => rfl) cls) shape
  have fieldNames (f : FieldId) :
      final.classes.fieldSignature f = declared.classes.fieldSignature f :=
    same_of_shape (f := fun set => set.fieldSignature f) (fun _ => rfl) shape
  have methodNames (m : MethodId) : final.classes.signature m = declared.classes.signature m :=
    same_of_shape (f := fun set => set.signature m) (fun set => by
      rw [signature, signature, set.methodAt_shape (·.name) (fun _ => rfl),
        set.methodAt_shape (·.desc) fun _ => rfl]) shape
  constructor
  · intro cls
    refine List.Nodup.map_on (fun f member g other same => ?_) (fieldLists cls ▸ once.fields cls)
    rcases arrived.fields cls f (fieldLists cls ▸ member) with oldF | addedF
    · rcases arrived.fields cls g (fieldLists cls ▸ other) with oldG | addedG
      · have kept {f : FieldId} (old : f ∈ (set.classAt cls).fields) :
            final.classes.fieldSignature f = set.fieldSignature f := by
          rw [fieldNames, fieldSignature, (evolves.field f (formed.fields cls f old).1).1]
          rfl
        rw [kept oldF, kept oldG] at same
        exact List.inj_on_of_nodup_map (distinct.fields cls) oldF oldG same
      · exact fieldsApart cls g addedG f member same
    · exact (fieldsApart cls f addedF g other same.symm).symm
  · intro cls
    refine List.Nodup.map_on (fun m member n other same => ?_) (methodLists cls ▸ once.methods cls)
    rcases arrived.methods cls m (methodLists cls ▸ member) with oldM | addedM
    · rcases arrived.methods cls n (methodLists cls ▸ other) with oldN | addedN
      · have kept {m : MethodId} (old : m ∈ (set.classAt cls).methods) :
            final.classes.signature m = set.signature m := by
          obtain ⟨name, desc, -⟩ := evolves.signature m (formed.methods cls m old).1
          rw [methodNames, signature, name, desc]
          rfl
        rw [kept oldM, kept oldN] at same
        exact List.inj_on_of_nodup_map (distinct.methods cls) oldM oldN same
      · exact methodsApart cls n addedN m member same
    · exact (methodsApart cls m addedM n other same.symm).symm

/-- A script that adds a field of a name to `a/A`. -/
def addsField (name : String) : Script :=
  ⟨[⟨.keep, .ordinary, ⟨"a/A", false⟩, 1, [], [],
    [⟨.add, ⟨name, false⟩, "I", ⟨0, .int⟩, false, false, none, 2⟩], []⟩]⟩

def addsFieldFound : Resolution := ⟨{}, [⟨some ⟨0⟩, [none], []⟩]⟩

theorem distinct_twoFields : twoFields.Distinct := by
  have outside (i : Nat) : twoFields.classAt ⟨i + 1⟩ = default := by
    have size : twoFields.classes.size = 1 := by with_unfolding_all decide
    rw [classAt, Array.getElem?_eq_none (by rw [size]; exact Nat.le_add_left 1 i)]
    rfl
  have fields :
      (twoFields.classAt ⟨0⟩).fields.map twoFields.fieldSignature = [("x", "I"), ("y", "I")] := by
    with_unfolding_all decide
  have methods : (twoFields.classAt ⟨0⟩).methods.map twoFields.signature = [("m", "()V")] := by
    with_unfolding_all decide
  constructor
  · rintro ⟨_ | i⟩
    · rw [fields]
      decide
    · rw [outside]
      exact List.nodup_nil
  · rintro ⟨_ | i⟩
    · rw [methods]
      decide
    · rw [outside]
      exact List.nodup_nil

theorem resolve_addsField {name : String} (one : name ∈ ["x", "z"]) :
    twoFields.resolve (addsField name) {} (twoFields.verify (addsField name)) {} =
      .ok addsFieldFound := by
  rcases List.mem_pair.1 one with rfl | rfl <;> with_unfolding_all decide

/-- The added field is the third one. -/
theorem apply_addsField {name : String} (one : name ∈ ["x", "z"]) :
    ∃ result, twoFields.apply (addsField name) addsFieldFound = .ok result ∧
      result.assignment = [⟨some ⟨0⟩, [some ⟨2⟩], []⟩] ∧
        (result.classes.classAt ⟨0⟩).fields = [⟨0⟩, ⟨1⟩, ⟨2⟩] ∧
      [⟨0⟩, ⟨1⟩, ⟨2⟩].map result.classes.fieldSignature = [("x", "I"), ("y", "I"),
        (name, "I")] := by
  have runs : (twoFields.apply (addsField name) addsFieldFound).toOption.map (fun result =>
      (result.assignment, (result.classes.classAt ⟨0⟩).fields,
        [⟨0⟩, ⟨1⟩, ⟨2⟩].map result.classes.fieldSignature)) =
    some ([⟨some ⟨0⟩, [some ⟨2⟩], []⟩], [⟨0⟩, ⟨1⟩, ⟨2⟩],
      [("x", "I"), ("y", "I"), (name, "I")]) := by
    rcases List.mem_pair.1 one with rfl | rfl <;> with_unfolding_all decide
  obtain ⟨result, applied, same⟩ := exists_ok_of_map runs
  simp only [Prod.mk.injEq] at same
  exact ⟨result, applied, same⟩

theorem apply_distinct_thirdField :
    twoFields.WellFormed ∧ twoFields.Distinct ∧
      ∃ result, twoFields.resolve (addsField "z") {} (twoFields.verify (addsField "z")) {} =
        .ok addsFieldFound ∧
        twoFields.apply (addsField "z") addsFieldFound = .ok result ∧ result.classes.Distinct := by
  have one : "z" ∈ ["x", "z"] := List.mem_pair.2 (.inr rfl)
  obtain ⟨result, applied, assigned, listed, names⟩ := apply_addsField one
  simp only [List.map_cons, List.map_nil, List.cons.injEq, and_true] at names
  refine ⟨reachable_twoFields.wellFormed, distinct_twoFields, result,
    resolve_addsField one, applied,
    apply_distinct reachable_twoFields.wellFormed distinct_twoFields
      (resolve_addsField one) applied ?_ ?_⟩
  · rintro cls f ⟨e, member, chosen, l, line, -, isField⟩ g other same
    rw [assigned] at member
    obtain rfl := List.mem_singleton.1 member
    obtain rfl := Option.some.inj chosen
    obtain rfl := List.mem_singleton.1 line
    obtain rfl := Option.some.inj isField
    rw [listed] at other
    simp only [List.mem_cons, List.not_mem_nil, or_false] at other
    rcases other with rfl | rfl | rfl
    · rw [names.1, names.2.2] at same
      exact absurd same (by decide)
    · rw [names.2.1, names.2.2] at same
      exact absurd same (by decide)
    · rfl
  · rintro cls m ⟨e, member, -, b, line, -⟩
    rw [assigned] at member
    obtain rfl := List.mem_singleton.1 member
    cases line

/-- A field is added although the class declares one with its name and descriptor. -/
theorem apply_distinct_fails : Reachable twoFields ∧ twoFields.Distinct ∧
    ∃ result, twoFields.resolve (addsField "x") {} (twoFields.verify (addsField "x")) {} =
      .ok addsFieldFound ∧
      twoFields.apply (addsField "x") addsFieldFound = .ok result ∧ ¬result.classes.Distinct := by
  have one : "x" ∈ ["x", "z"] := List.mem_pair.2 (.inl rfl)
  obtain ⟨result, applied, -, listed, names⟩ := apply_addsField one
  refine ⟨reachable_twoFields, distinct_twoFields, result, resolve_addsField one, applied,
    fun distinct => ?_⟩
  have once := distinct.fields ⟨0⟩
  rw [listed, names] at once
  exact absurd once (by decide)

end ClassSet

end JvmPatch
